/-
When a `SharedResourceMap` releases its resources.

The deleter of the control block that a `ValueObj_` observes (`Newest`) has to
take the entry away and to let go of the `ValueObj_`, or else the two keep each
other. It does so unless another deleter has taken the entry away before, or
`Inner` is gone (`Allowed`, `releases`).
-/
import CxxHeaders.SharedResourceMapAgree

open Outcome

namespace SharedResourceMap

variable {κ : Type} {s t : SharedResourceMap κ} {f v : Nat}

/-- No control block for the resource was made after this one. -/
def Newest (s : SharedResourceMap κ) (f : Nat) : Prop := (s.valueObj (s.block f).valueObj).weakPtr = some f

/-- There is no handle, but the deleter has not returned. -/
def Waiting (s : SharedResourceMap κ) (f : Nat) : Prop :=
  (s.block f).deleter ≠ .unused ∧ (s.block f).deleter ≠ .done

/-- What goes well. A new resource is made when no deleter of its key waits that
has the `ValueObj_`; the deleter of the newest control block finds `Inner`; and
an entry without handles is erased by the deleter of its newest control block. -/
def Allowed (s : SharedResourceMap κ) : Act κ → Prop
  | .getResource key => s.data key = none → ∀ f, s.Waiting f → (s.block f).captured → s.keyOf f ≠ key
  | .lock f => s.Newest f → s.inner
  | .deleteSection f => ∀ w, s.data (s.keyOf f) = some w → s.expired w → (s.valueObj w).weakPtr = some f
  | _ => True

/-- A resource without handles and waiting deleters was destroyed once, and has
no entry; and there is one resource for a key. -/
structure Released (s : SharedResourceMap κ) : Prop where
  destroyed : ∀ v < s.made, (∀ f < s.blocks, (s.block f).valueObj = v → ¬s.Live f ∧ ¬s.Waiting f) →
    s.destroyed v = 1 ∧ s.data (s.valueObj v).key ≠ some v
  unique : ∀ v w, v < s.made → w < s.made → (s.valueObj v).key = (s.valueObj w).key →
    s.destroyed v = 0 → s.destroyed w = 0 → v = w

/-- The entry of a resource is there until the deleter of its newest control
block has been through its section, and this deleter lets go of the
`ValueObj_` there. -/
structure Current (s : SharedResourceMap κ) : Prop where
  entered : s.inner → ∀ v < s.made, ∀ f, (s.valueObj v).weakPtr = some f → (s.block f).deleter.early →
    s.data (s.valueObj v).key = some v
  early : ∀ v < s.made, ∀ f, (s.valueObj v).weakPtr = some f → s.data (s.valueObj v).key = some v →
    (s.block f).deleter.early
  reset : ∀ v < s.made, ∀ f, (s.valueObj v).weakPtr = some f → (s.block f).captured → (s.block f).deleter.early
  unique : ∀ v w, v < s.made → w < s.made → (s.valueObj v).key = (s.valueObj w).key →
    s.destroyed v = 0 → s.destroyed w = 0 → v = w

theorem Current.congr (h : Current s) (hletGo : LetGo s t) : Current t := by
  obtain ⟨hentered, hearly, hreset, hunique⟩ := h
  refine ⟨fun hi v hv f hf hd => ?_, fun v hv f hf hd => ?_, fun v hv f hf hc => ?_,
    fun v w hv hw hk hvz hwz => ?_⟩
  all_goals
    simp only [hletGo.made, hletGo.valueObj, hletGo.deleter, hletGo.data] at *
  · exact hentered (hletGo.inner ▸ hi) v hv f hf hd
  · exact hearly v hv f hf hd
  · exact hreset v hv f hf (hletGo.captured f hc)
  · have := hletGo.destroyed v
    have := hletGo.destroyed w
    exact hunique v w hv hw hk (by omega) (by omega)

theorem Current.of_block (h : Current s) {block : Nat → ControlBlock}
    (hearly : ∀ g, (block g).deleter.early = (s.block g).deleter.early)
    (hcaptured : ∀ g, (block g).captured = (s.block g).captured)
    (hinner : inner { s with block := block } → s.inner) : Current { s with block := block } := by
  obtain ⟨hentered, hearly', hreset, hunique⟩ := h
  refine ⟨fun hi v hv f hf hd => ?_, fun v hv f hf hd => ?_, fun v hv f hf hc => ?_, hunique⟩
  · exact hentered (hinner hi) v hv f hf (hearly f ▸ hd)
  · exact (hearly f).symm ▸ hearly' v hv f hf hd
  · exact (hearly f).symm ▸ hreset v hv f hf (hcaptured f ▸ hc)

theorem Linked.newest (h : Linked s) (hv : v < s.made) (hf : (s.valueObj v).weakPtr = some f) :
    s.Newest f := by
  unfold Newest
  rw [(h.weakPtr v hv f hf).2, hf]

/-- A deleter goes on; it matters for the newest control blocks only whether it
goes through its section. -/
theorem Current.setDeleter (h : Current s) (hl : Linked s) {d : Deleter}
    (hd : s.Newest f → d.early = (s.block f).deleter.early)
    (hinner : (s.setDeleter f d).inner → s.inner) :
    Current (s.setDeleter f d) := by
  have hearly : ∀ v < s.made, ∀ g, (s.valueObj v).weakPtr = some g →
      ((s.setDeleter f d).block g).deleter.early = (s.block g).deleter.early := fun v hv g hg => by
    by_cases hgf : g = f
    · subst hgf
      rw [deleter_setDeleter]
      exact hd (hl.newest hv hg)
    · simp [SharedResourceMap.setDeleter, hgf]
  obtain ⟨hentered, hearly', hreset, hunique⟩ := h
  refine ⟨fun hi v hv g hg he => ?_, fun v hv g hg he => ?_, fun v hv g hg hc => ?_, hunique⟩
  · rw [hearly v hv g hg] at he
    exact hentered (hinner hi) v hv g hg he
  · rw [hearly v hv g hg]
    exact hearly' v hv g hg he
  · rw [hearly v hv g hg]
    refine hreset v hv g hg ?_
    by_cases hgf : g = f
    · simpa [hgf, SharedResourceMap.setDeleter] using hc
    · simpa [hgf, SharedResourceMap.setDeleter] using hc

/-- The deleter of the newest control block takes the entry away. -/
theorem Current.eraseNewest [DecidableEq κ] (h : Current s) (hl : Linked s) (hentries : Entries s)
    (hi : s.inner)
    (hdata : s.data (s.keyOf f) = some v) (hf : (s.valueObj v).weakPtr = some f) :
    Current (((s.setDeleter f .leaving).uncapture f).erase (s.keyOf f)) := by
  obtain ⟨hv, hkey⟩ := hentries _ v hdata
  have hblock : ∀ g, g ≠ f → ((s.setDeleter f .leaving).uncapture f).block g = s.block g :=
    fun g hg => by
    simp [SharedResourceMap.setDeleter, SharedResourceMap.uncapture, hg]
  have hself : (((s.setDeleter f .leaving).uncapture f).block f).deleter = .leaving ∧
      (((s.setDeleter f .leaving).uncapture f).block f).captured = false := by
    simp [SharedResourceMap.setDeleter, SharedResourceMap.uncapture]
  -- Another control block is the newest one of another resource, with another key if there is an entry.
  have hother : ∀ w < s.made, ∀ g, (s.valueObj w).weakPtr = some g → g ≠ f →
      s.data (s.valueObj w).key = some w → (s.valueObj w).key ≠ s.keyOf f := fun w hw g hg hgf he hk => by
    rw [hk, hdata] at he
    cases he
    exact hgf (Option.some.inj (hg.symm.trans hf))
  obtain ⟨hentered, hearly, hreset, hunique⟩ := h
  refine ⟨fun _ w hw g hg he => ?_, fun w hw g hg he => ?_, fun w hw g hg hc => ?_, hunique⟩
  all_goals by_cases hgf : g = f
  · subst hgf
    rw [erase, hself.1] at he
    cases he
  · have he := hentered hi w hw g hg (by rwa [← hblock g hgf])
    exact (Function.update_of_ne (hother w hw g hg hgf he) _ _).trans he
  · have hwv : w = v := (hl.weakPtr w hw g hg).2.symm.trans (hl.weakPtr v hv g (hgf ▸ hf)).2
    have he : Function.update s.data (s.keyOf f) none (s.valueObj w).key = some w := he
    rw [hwv, hkey, Function.update_self] at he
    cases he
  · have hk : (s.valueObj w).key ≠ s.keyOf f := fun hk => by
      have he : Function.update s.data (s.keyOf f) none (s.valueObj w).key = some w := he
      rw [hk, Function.update_self] at he
      cases he
    have he : s.data (s.valueObj w).key = some w := (Function.update_of_ne hk _ _).symm.trans he
    have hearly := hearly w hw g hg he
    rwa [← hblock g hgf] at hearly
  · subst hgf
    rw [erase, hself.2] at hc
    cases hc
  · have hearly := hreset w hw g hg (by rwa [← hblock g hgf])
    rwa [← hblock g hgf] at hearly

/-- Entries go with `Inner`. -/
theorem Current.setData (h : Current s) {data : κ → Option Nat}
    (hdata : ∀ k v, data k = some v → s.data k = some v)
    (hentered : s.inner → data = s.data) : Current { s with data := data } := by
  obtain ⟨hentered', hearly, hreset, hunique⟩ := h
  refine ⟨fun hi v hv f hf he => ?_, fun v hv f hf he => hearly v hv f hf (hdata _ v he), hreset,
    hunique⟩
  have hi : s.inner := hi
  rw [hentered hi]
  exact hentered' hi v hv f hf he

/-- A new control block for the resource of an entry. -/
theorem Current.newHandle (h : Current s) (hl : Linked s) (hdata : s.data (s.valueObj v).key = some v) :
    Current (s.newHandle v) := by
  have hother : ∀ w < s.made, w ≠ v → ∀ f, ((s.newHandle v).valueObj w).weakPtr = some f →
      (s.valueObj w).weakPtr = some f ∧ (s.newHandle v).block f = s.block f := fun w hw hwv f hf => by
    rw [newHandle_valueObj_of_ne hwv] at hf
    exact ⟨hf, newHandle_block_of_ne (Nat.ne_of_lt (hl.weakPtr w hw f hf).1)⟩
  have hself : ∀ f, ((s.newHandle v).valueObj v).weakPtr = some f →
      ((s.newHandle v).block f).deleter.early := fun f hf => by
    rw [newHandle_valueObj] at hf
    cases hf
    rw [newHandle_block]
    rfl
  obtain ⟨hentered, hearly, hreset, hunique⟩ := h
  refine ⟨fun hi w hw f hf he => ?_, fun w hw f hf he => ?_, fun w hw f hf hc => ?_,
    fun u w hu hw hk hz => ?_⟩
  case refine_4 =>
    rw [newHandle_key, newHandle_key] at hk
    exact hunique u w hu hw hk hz
  all_goals by_cases hwv : w = v
  · rw [hwv, newHandle_key]
    exact hdata
  · obtain ⟨hf, hblock⟩ := hother w hw hwv f hf
    rw [newHandle_key]
    exact hentered (newHandle_inner hi) w hw f hf (hblock ▸ he)
  · exact hself f (hwv ▸ hf)
  · obtain ⟨hf, hblock⟩ := hother w hw hwv f hf
    rw [newHandle_key] at he
    exact hblock ▸ hearly w hw f hf he
  · exact hself f (hwv ▸ hf)
  · obtain ⟨hf, hblock⟩ := hother w hw hwv f hf
    exact hblock ▸ hreset w hw f hf (hblock ▸ hc)

/-- A new resource, when there is no other one of its key. -/
theorem Current.emplace [DecidableEq κ] (h : Current s) {key : κ} (hdata : s.data key = none)
    (hnone : ∀ w < s.made, (s.valueObj w).key = key → s.destroyed w ≠ 0) : Current (s.emplace key) := by
  have hmade : ∀ w, w < s.made + 1 ↔ w = s.made ∨ w < s.made := fun w => by omega
  have hweak : ∀ w < s.made + 1, ∀ f, ((s.emplace key).valueObj w).weakPtr = some f →
      w < s.made ∧ (s.valueObj w).weakPtr = some f ∧
        ((s.emplace key).valueObj w).key = (s.valueObj w).key := fun w hw f hf => by
    rcases (hmade w).mp hw with rfl | hw
    · rw [emplace_valueObj] at hf
      cases hf
    · rw [emplace_valueObj_of_lt hw] at hf
      exact ⟨hw, hf, by rw [emplace_valueObj_of_lt hw]⟩
  obtain ⟨hentered, hearly, hreset, hunique⟩ := h
  refine ⟨fun hi w hw f hf he => ?_, fun w hw f hf he => ?_, fun w hw f hf hc => ?_,
    fun u w hu hw hk huz hwz => ?_⟩
  · obtain ⟨hw, hf, hk⟩ := hweak w hw f hf
    have hentered := hentered hi w hw f hf he
    have hne : (s.valueObj w).key ≠ key := fun hk => by
      rw [hk, hdata] at hentered
      cases hentered
    rw [hk]
    exact (Function.update_of_ne hne _ _).trans hentered
  · obtain ⟨hw, hf, hk⟩ := hweak w hw f hf
    refine hearly w hw f hf ?_
    rw [hk] at he
    have hne : (s.valueObj w).key ≠ key := fun hne => by
      have he : Function.update s.data key (some s.made) (s.valueObj w).key = some w := he
      rw [hne, Function.update_self] at he
      exact Nat.ne_of_gt hw (Option.some.inj he)
    exact (Function.update_of_ne hne _ _).symm.trans he
  · obtain ⟨hw, hf, -⟩ := hweak w hw f hf
    exact hreset w hw f hf hc
  · rcases (hmade u).mp hu with rfl | hu <;> rcases (hmade w).mp hw with rfl | hw
    · rfl
    · rw [emplace_valueObj, emplace_valueObj_of_lt hw] at hk
      exact absurd hwz (hnone w hw hk.symm)
    · rw [emplace_valueObj, emplace_valueObj_of_lt hu] at hk
      exact absurd huz (hnone u hu hk)
    · rw [emplace_valueObj_of_lt hu, emplace_valueObj_of_lt hw] at hk
      exact hunique u w hu hw hk huz hwz

/-! ## Steps -/

/-- A deleter that has returned captures nothing. -/
theorem Current.not_done (h : Current s) (ho : Owners s) (hf : (s.block f).captured) :
    (s.block f).deleter ≠ .done := by
  intro hd
  rcases observed_iff.mp (ho.observed f hf) with hne | ⟨v, hv, -, hvf⟩
  · exact hne hd
  · have hearly := h.reset v hv f hvf hf
    rw [hd] at hearly
    cases hearly

/-- `createShared` has been called for every `ValueObj_`. -/
def Observing (s : SharedResourceMap κ) : Prop := ∀ v < s.made, ∃ f, (s.valueObj v).weakPtr = some f

theorem Observing.congr (h : Observing s) (hmade : t.made = s.made)
    (hvalueObj : t.valueObj = s.valueObj) :
    Observing t := by
  unfold Observing
  rw [hmade, hvalueObj]
  exact h

theorem Current.createShared (h : Current s) (hl : Linked s)
    (hdata : s.data (s.valueObj v).key = some v) :
    Current (s.createShared v) :=
  (h.newHandle hl hdata).congr (letGo_createShared s v)

theorem observing_createShared (h : ∀ w < s.made, w ≠ v → ∃ f, (s.valueObj w).weakPtr = some f) :
    Observing (s.createShared v) := by
  have hletGo := letGo_createShared s v
  refine Observing.congr (s := s.newHandle v) (fun w hw => ?_) hletGo.made hletGo.valueObj
  by_cases hwv : w = v
  · exact ⟨s.blocks, by rw [hwv, newHandle_valueObj]⟩
  · rw [newHandle_valueObj_of_ne hwv]
    exact h w hw hwv

/-- Without an entry, and where no deleter waits for the key, there is no
resource left. -/
theorem Current.destroyed_of_none (h : Current s) (hinv : Inv s) (hi : s.inner) {key : κ}
    (hdata : s.data key = none)
    (hwait : ∀ f, s.Waiting f → (s.block f).captured → s.keyOf f ≠ key) :
    ∀ w < s.made, (s.valueObj w).key = key → s.destroyed w ≠ 0 := by
  intro w hw hk hz
  have howned : s.owned w := by
    by_contra ho
    have hdestroyed := hinv.owners.destroyed w hw
    rw [if_neg ho, hz] at hdestroyed
    cases hdestroyed
  -- Its owner is an entry or a control block; one with handles has an entry, and the deleter of any other waits.
  rcases owned_iff.mp howned with he | ⟨f, hf, hcap, hfw⟩
  · rw [hk, hdata] at he
    cases he
  · have hkey : s.keyOf f = key := by rw [keyOf, hfw, hk]
    by_cases hd : (s.block f).deleter = .unused
    · have hentered := hinv.handles.entered hi f ((hinv.handles.unused f).mpr ⟨hf, hd⟩)
      rw [hkey, hdata] at hentered
      cases hentered
    · exact hwait f ⟨hd, h.not_done hinv.owners hcap⟩ hcap hkey

/-- The deleter of the newest control block finds its entry. -/
theorem Current.expired_of_newest (h : Current s) (hinv : Inv s) (hobs : s.Newest f)
    (hf : (s.block f).deleter = .locked) :
    s.data (s.keyOf f) = some (s.block f).valueObj ∧ s.expired (s.block f).valueObj := by
  have hlt := hinv.owners.linked.target f (hinv.handles.bound f (by simp [hf]))
  refine ⟨h.entered (hinv.handles.inner_of_locked (.inl hf)) _ hlt f hobs (by rw [hf]; rfl), ?_⟩
  have hlive : ¬s.Live f := hinv.handles.not_live (by simp [hf])
  unfold Newest at hobs
  unfold Live at hlive
  rw [expired, hobs]
  simpa using hlive

@[simp] theorem expired_setDeleter {d : Deleter} : (s.setDeleter f d).expired v = s.expired v := by
  unfold expired
  refine congrArg (fun p => Option.all p _) (funext fun g => ?_)
  by_cases hg : g = f <;> simp [setDeleter, hg]

/-- The use counts are others. -/
theorem Current.setUseCount (h : Current s) (f n : Nat) : Current (s.setUseCount f n) := by
  refine h.of_block (fun g => ?_) (fun g => ?_) (inner_of_block fun g hg => ?_) <;> by_cases hgf : g = f
  · simp [hgf]
  · simp [hgf]
  · simp [hgf]
  · simp [hgf]
  · simpa [hgf] using hg
  · simpa [hgf] using hg

theorem Current.destroyMap (h : Current s) (hmap : s.map) : Current { s with map := false } := by
  obtain ⟨hentered, hearly, hreset, hunique⟩ := h
  exact ⟨fun _ => hentered (inner_of_map hmap), hearly, hreset, hunique⟩

section

variable [DecidableEq κ]

theorem Current.getResource (h : Current s) (hinv : Inv s) (hobs : Observing s) (hmap : s.map) {key : κ}
    (hwait : s.Allowed (.getResource key)) :
    Current (s.getResource key) ∧ Observing (s.getResource key) := by
  have hi := inner_of_map hmap
  have hl := hinv.owners.linked
  unfold SharedResourceMap.getResource
  split
  next v hv =>
    obtain ⟨hlt, hkey⟩ := hinv.handles.entries key v hv
    have hcreate : Current (s.createShared v) ∧ Observing (s.createShared v) :=
      ⟨h.createShared hl (by rw [hkey, hv]), observing_createShared fun w hw _ => hobs w hw⟩
    split
    next f _ =>
      split
      next => exact hcreate
      next => exact ⟨h.setUseCount f _, hobs⟩
    next => exact hcreate
  next hnone =>
    have hdestroyed := h.destroyed_of_none hinv hi hnone (hwait hnone)
    refine ⟨(h.emplace hnone hdestroyed).createShared (hinv.owners.emplace hnone).linked ?_, ?_⟩
    · rw [emplace_valueObj]
      exact Function.update_self ..
    · refine observing_createShared fun w hw hne => ?_
      have hw : w < s.made := by
        have hw : w < s.made + 1 := hw
        omega
      rw [emplace_valueObj_of_lt hw]
      exact hobs w hw

theorem Current.deleteSection (h : Current s) (hinv : Inv s) (hf : (s.block f).deleter = .locked)
    (hown : s.Allowed (.deleteSection f)) : Current ((s.setDeleter f .leaving).deleteSection f) := by
  have hi := hinv.handles.inner_of_locked (.inl hf)
  have hl := hinv.owners.linked
  rcases letGo_deleteSection (s.setDeleter f .leaving) f with ⟨hletGo, hnot⟩ | ⟨w, hw, hexp, hletGo⟩
  · refine (h.setDeleter hl (fun hnew => ?_) fun _ => hi).congr hletGo
    obtain ⟨hdata, hexp⟩ := h.expired_of_newest hinv hnew hf
    rw [keyOf_setDeleter] at hnot
    exact absurd (by rwa [expired_setDeleter]) (hnot _ hdata)
  · rw [keyOf_setDeleter] at hw hletGo
    rw [expired_setDeleter] at hexp
    exact (h.eraseNewest hl hinv.handles.entries hi hw (hown w hw hexp)).congr hletGo

theorem Observing.destroyInner (h : Observing s) (hinv : Inv s) : Observing s.destroyInner := by
  have hletGo := (hinv.owners.destroyInner hinv.handles.entries).2
  exact h.congr hletGo.made hletGo.valueObj

theorem Current.destroyInner (h : Current s) (hinv : Inv s) : Current s.destroyInner := by
  refine (h.setData (fun k v hv => ?_) fun hi => ?_).congr (hinv.owners.destroyInner hinv.handles.entries).2
  · split at hv
    next => exact hv
    next => cases hv
  · exact if_pos hi

theorem Observing.deleteSection (h : Observing s) (f : Nat) : Observing (s.deleteSection f) := by
  rcases letGo_deleteSection s f with ⟨hletGo, -⟩ | ⟨w, -, -, hletGo⟩
  · exact h.congr hletGo.made hletGo.valueObj
  · exact h.congr hletGo.made hletGo.valueObj

theorem next_current (hinv : Inv s) (h : Current s) (hobs : Observing s) (a : Act κ) (ha : s.Allowed a) :
    (next s a).Ok fun t => Current t ∧ Observing t := by
  have hl := hinv.owners.linked
  cases a with
  | getResource key =>
    simp only [next, ok_bind, ok_requiring]
    exact fun hmap => h.getResource hinv hobs hmap ha
  | copy f =>
    simp only [next, ok_bind, ok_requiring]
    exact fun _ => ⟨h.setUseCount f _, hobs⟩
  | drop f =>
    simp only [next, ok_bind, ok_requiring]
    intro hf
    split
    next =>
      have hunused := ((hinv.handles.unused f).mp hf).2
      have hl' := (hinv.owners.setUseCount f ((s.block f).useCount - 1)).linked
      refine ⟨(h.setUseCount f _).setDeleter hl' (fun _ => ?_) (setDeleter_inner (by decide)), hobs⟩
      simp [setUseCount, hunused, Deleter.early]
    next => exact ⟨h.setUseCount f _, hobs⟩
  | lock f =>
    simp only [next, ok_bind, ok_requiring]
    intro hf
    split
    next hi => exact ⟨h.setDeleter hl (fun _ => by rw [hf]; rfl) fun _ => hi, hobs⟩
    next hi => exact ⟨h.setDeleter hl (fun hnew => absurd (ha hnew) hi) (setDeleter_inner (by decide)), hobs⟩
  | deleteSection f =>
    simp only [next, ok_bind, ok_requiring]
    have hobs' : Observing (s.setDeleter f .leaving) := hobs.congr rfl rfl
    exact fun hf => ⟨h.deleteSection hinv hf ha, hobs'.deleteSection f⟩
  | leave f =>
    simp only [next, ok_bind, ok_requiring]
    intro hf
    have hinv' : Inv (s.setDeleter f .returning) := hinv.setReturning hf
    have h' : Current (s.setDeleter f .returning) :=
      h.setDeleter hl (fun _ => by rw [hf]; rfl) (setDeleter_inner (by decide))
    exact ⟨h'.destroyInner hinv', Observing.destroyInner hobs hinv'⟩
  | finish f =>
    simp only [next, ok_bind, ok_requiring]
    intro hf
    have h' : Current (s.setDeleter f .done) :=
      h.setDeleter hl (fun _ => by rw [hf]; rfl) (setDeleter_inner (by decide))
    have hletGo := letGo_releaseWeak chain (s.setDeleter f .done) f
    exact ⟨h'.congr hletGo, hobs.congr hletGo.made hletGo.valueObj⟩
  | destroy =>
    simp only [next, ok_bind, ok_requiring]
    intro hmap
    have hinv' := hinv.destroyMap hmap
    have h' : Current { s with map := false } := h.destroyMap hmap
    exact ⟨h'.destroyInner hinv', Observing.destroyInner hobs hinv'⟩

end

/-! ## Releases -/

/-- All handles of a resource are gone, and the deleters have returned: they
are done. -/
theorem Handles.done (h : Handles s) (hf : f < s.blocks) (hlive : ¬s.Live f) (hwait : ¬s.Waiting f) :
    (s.block f).deleter = .done := by
  by_contra hd
  refine hwait ⟨fun hu => hlive ((h.unused f).mpr ⟨hf, hu⟩), hd⟩

theorem Current.released (h : Current s) (hinv : Inv s) (hobs : Observing s) : Released s := by
  refine ⟨fun v hv hquiet => ?_, h.unique⟩
  have hdone : ∀ f < s.blocks, (s.block f).valueObj = v → (s.block f).deleter = .done := fun f hf hfv =>
    hinv.handles.done hf (hquiet f hf hfv).1 (hquiet f hf hfv).2
  have hentry : s.data (s.valueObj v).key ≠ some v := fun he => by
    -- The entry is there until the newest deleter has been through its section.
    obtain ⟨g, hg⟩ := hobs v hv
    obtain ⟨hlt, hgv⟩ := hinv.owners.linked.weakPtr v hv g hg
    have hearly := h.early v hv g hg he
    rw [hdone g hlt hgv] at hearly
    cases hearly
  have howned : ¬s.owned v := fun ho => by
    rcases owned_iff.mp ho with he | ⟨f, hf, hcap, hfv⟩
    · exact hentry he
    · exact h.not_done hinv.owners hcap (hdone f hf hfv)
  have hdestroyed := hinv.owners.destroyed v hv
  rw [if_neg howned] at hdestroyed
  exact ⟨hdestroyed, hentry⟩

theorem current_new (garbage : Nat → ValueObj κ) : Current (new garbage) ∧ Observing (new garbage) :=
  ⟨⟨fun _ => nofun, nofun, nofun, nofun⟩, nofun⟩

variable [DecidableEq κ]

/-- **A resource is destroyed once, after its last handle, in every run whose
steps are allowed.** -/
theorem releases (garbage : Nat → ValueObj κ) (as : List (Act κ))
    (h : Runs.Meets next Allowed (new garbage) as) :
    (Runs.run next (new garbage) as).Ok Released := by
  have hrun : (Runs.run next (new garbage) as).Ok fun s => Inv s ∧ Current s ∧ Observing s := by
    refine h.ok_run (fun s a ⟨hinv, hcurrent, hobs⟩ ha => ?_) ⟨inv_new garbage, current_new garbage⟩
    exact (next_inv hinv a).and (next_current hinv hcurrent hobs a ha)
  exact hrun.mono fun s ⟨hinv, hcurrent, hobs⟩ => hcurrent.released hinv hobs

/-- A handle is dropped, and then the map destroyed. -/
def dropped : List (Act Nat) :=
  [.getResource 0, .drop 0, .lock 0, .deleteSection 0, .leave 0, .finish 0, .destroy]

theorem releases_dropped :
    ∃ t, Runs.run next (new fun _ => ⟨0, none⟩) dropped = .next t ∧ Released t := by
  have hrun : (Runs.run next (new fun _ => ⟨0, none⟩) dropped).isNext := by decide +kernel
  obtain ⟨t, ht⟩ := exists_of_isNext hrun
  refine ⟨t, ht, (releases _ dropped ?_).of_next ht⟩
  refine ⟨fun _ f hf => absurd rfl hf.2, fun s₁ h₁ => ⟨trivial, fun s₂ h₂ => ⟨?_, fun s₃ h₃ => ⟨?_, ?_⟩⟩⟩⟩
  · cases h₁
    cases h₂
    exact fun _ => rfl
  · cases h₁
    cases h₂
    cases h₃
    intro w hw _
    cases hw
    rfl
  · exact fun _ _ => ⟨trivial, fun _ _ => ⟨trivial, fun _ _ => ⟨trivial, fun _ _ => trivial⟩⟩⟩

/-- The map is destroyed before the handle is dropped. -/
def outlived : List (Act Nat) := [.getResource 0, .destroy, .drop 0, .lock 0, .finish 0]

theorem outlived_leaks :
    ∃ t, Runs.run next (new fun _ => ⟨0, none⟩) outlived = .next t ∧ ¬Released t := by
  refine ⟨_, rfl, fun h => ?_⟩
  have hdestroyed := (h.destroyed 0 (by decide +kernel) fun f hf _ => ?quiet).1
  case quiet =>
    obtain rfl : f = 0 := Nat.lt_one_iff.mp hf
    exact ⟨Nat.lt_irrefl 0, fun hwait => hwait.2 rfl⟩
  cases hdestroyed

end SharedResourceMap
