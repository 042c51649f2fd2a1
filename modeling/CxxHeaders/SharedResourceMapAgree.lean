/-
All handles for a key are for the same resource (`agreement`), because a
handle's control block is the one that the entry of its key observes.
-/
import CxxHeaders.SharedResourceMapFacts

open Outcome

namespace SharedResourceMap

variable {κ : Type} {s t : SharedResourceMap κ} {f v : Nat}

/-- The key and the resource of a control block's handles. -/
def keyOf (s : SharedResourceMap κ) (f : Nat) : κ := (s.valueObj (s.block f).valueObj).key

/-- There is a handle. -/
def Live (s : SharedResourceMap κ) (f : Nat) : Prop := 0 < (s.block f).useCount

/-- What the handles and the entries have to do with each other. -/
structure Handles (s : SharedResourceMap κ) : Prop where
  bound : ∀ f, (s.block f).deleter ≠ .done → f < s.blocks
  unused : ∀ f, s.Live f ↔ f < s.blocks ∧ (s.block f).deleter = .unused
  entries : Entries s
  observed : ∀ f, s.Live f → (s.valueObj (s.block f).valueObj).weakPtr = some f
  entered : s.inner → ∀ f, s.Live f → s.data (s.keyOf f) = some (s.block f).valueObj
  agree : ∀ f g, s.Live f → s.Live g → s.keyOf f = s.keyOf g → (s.block f).valueObj = (s.block g).valueObj

theorem LetGo.keyOf (h : LetGo s t) (f : Nat) : t.keyOf f = s.keyOf f := by
  unfold SharedResourceMap.keyOf
  rw [h.target, h.valueObj]

theorem LetGo.live (h : LetGo s t) : t.Live f ↔ s.Live f := by
  unfold Live
  rw [h.useCount]

theorem Handles.congr (h : Handles s) (hletGo : LetGo s t) : Handles t := by
  refine ⟨fun f hf => ?_, fun f => ?_, fun k v hv => ?_, fun f hf => ?_, fun hi f hf => ?_,
    fun f g hf hg hk => ?_⟩
  · rw [hletGo.deleter] at hf
    rw [hletGo.blocks]
    exact h.bound f hf
  · rw [hletGo.live, hletGo.blocks, hletGo.deleter]
    exact h.unused f
  · rw [hletGo.data] at hv
    rw [hletGo.made, hletGo.valueObj]
    exact h.entries k v hv
  · rw [hletGo.target, hletGo.valueObj]
    exact h.observed f (hletGo.live.mp hf)
  · rw [hletGo.data, hletGo.target, hletGo.keyOf]
    exact h.entered (hletGo.inner ▸ hi) f (hletGo.live.mp hf)
  · rw [hletGo.keyOf, hletGo.keyOf] at hk
    rw [hletGo.target, hletGo.target]
    exact h.agree f g (hletGo.live.mp hf) (hletGo.live.mp hg) hk

/-- Other use counts and deleters. -/
theorem Handles.of_block (h : Handles s) {block : Nat → ControlBlock}
    (htarget : ∀ f, (block f).valueObj = (s.block f).valueObj)
    (hlive : ∀ f, 0 < (block f).useCount → s.Live f)
    (hdone : ∀ f, (block f).deleter ≠ .done → (s.block f).deleter ≠ .done)
    (hunused : ∀ f, 0 < (block f).useCount ↔ f < s.blocks ∧ (block f).deleter = .unused)
    (hinner : inner { s with block := block } → s.inner) : Handles { s with block := block } := by
  have hkey : ∀ f, keyOf { s with block := block } f = s.keyOf f := fun f => by
    unfold keyOf
    rw [htarget]
  refine ⟨fun f hf => h.bound f (hdone f hf), hunused, h.entries, fun f hf => ?_, fun hi f hf => ?_,
    fun f g hf hg hk => ?_⟩
  · rw [htarget]
    exact h.observed f (hlive f hf)
  · rw [htarget, hkey]
    exact h.entered (hinner hi) f (hlive f hf)
  · rw [hkey, hkey] at hk
    rw [htarget, htarget]
    exact h.agree f g (hlive f hf) (hlive g hg) hk

@[simp] theorem deleter_setDeleter {d : Deleter} : ((s.setDeleter f d).block f).deleter = d := by
  simp [setDeleter]

@[simp] theorem live_setDeleter {d : Deleter} {g : Nat} : (s.setDeleter f d).Live g ↔ s.Live g := by
  by_cases hg : g = f <;> simp [Live, setDeleter, hg]

@[simp] theorem keyOf_setDeleter {d : Deleter} {g : Nat} : (s.setDeleter f d).keyOf g = s.keyOf g := by
  by_cases hg : g = f <;> simp [keyOf, setDeleter, hg]

theorem inner_of_block {block : Nat → ControlBlock}
    (h : ∀ f, (block f).deleter = .locked ∨ (block f).deleter = .leaving →
      (s.block f).deleter = .locked ∨ (s.block f).deleter = .leaving)
    (hi : inner { s with block := block }) : s.inner :=
  inner_iff.mpr ((inner_iff.mp hi).imp_right fun ⟨f, hf, hd⟩ => ⟨f, hf, h f hd⟩)

theorem Handles.setUseCount (h : Handles s) (hf : s.Live f) {n : Nat} (hn : 0 < n) :
    Handles (s.setUseCount f n) := by
  refine h.of_block (fun g => ?_) (fun g hg => ?_) (fun g hg => ?_) (fun g => ?_)
    (inner_of_block fun g hg => ?_)
  all_goals by_cases hgf : g = f
  · simp [hgf]
  · simp [hgf]
  · exact hgf ▸ hf
  · simpa [hgf, Live] using hg
  · simpa [hgf] using hg
  · simpa [hgf] using hg
  · have hunused := (h.unused f).mp hf
    simp [hgf, hn, hunused]
  · simpa [hgf, Live] using h.unused g
  · simpa [hgf] using hg
  · simpa [hgf] using hg

/-- The last handle of a control block is dropped. -/
theorem Handles.dropLast (h : Handles s) (hf : s.Live f) :
    Handles ((s.setUseCount f 0).setDeleter f .pending) := by
  have hunused := (h.unused f).mp hf
  refine h.of_block (fun g => ?_) (fun g hg => ?_) (fun g hg => ?_) (fun g => ?_)
    (inner_of_block fun g hg => ?_)
  all_goals by_cases hgf : g = f
  · simp [hgf, SharedResourceMap.setUseCount]
  · simp [hgf, SharedResourceMap.setUseCount]
  · simp [hgf, SharedResourceMap.setUseCount] at hg
  · simpa [hgf, SharedResourceMap.setUseCount, Live] using hg
  · simp [hgf, hunused]
  · simpa [hgf, SharedResourceMap.setUseCount] using hg
  · simp [hgf, SharedResourceMap.setUseCount]
  · simpa [hgf, SharedResourceMap.setUseCount, Live] using h.unused g
  · simp [hgf] at hg
  · simpa [hgf, SharedResourceMap.setUseCount] using hg

theorem Handles.setDeleter (h : Handles s) (hf : ¬s.Live f) (hrun : (s.block f).deleter ≠ .done)
    {d : Deleter}
    (hd : d ≠ .unused) (hinner : (s.setDeleter f d).inner → s.inner) : Handles (s.setDeleter f d) := by
  refine h.of_block (fun g => ?_) (fun g hg => ?_) (fun g hg => ?_) (fun g => ?_) hinner
  all_goals by_cases hgf : g = f
  · simp [hgf]
  · simp [hgf]
  · exact absurd (by simpa [hgf, Live] using hg) hf
  · simpa [hgf, Live] using hg
  · rwa [hgf]
  · simpa [hgf] using hg
  · unfold Live at hf
    simpa [hgf, hd] using hf
  · simpa [hgf, Live] using h.unused g

/-- Entries go, but not those of handles. -/
theorem Handles.setData (h : Handles s) {data : κ → Option Nat}
    (hdata : ∀ k v, data k = some v → s.data k = some v)
    (hlive : s.inner → ∀ f, s.Live f → data (s.keyOf f) = some (s.block f).valueObj) :
    Handles { s with data := data } :=
  ⟨h.bound, h.unused, fun k v hv => h.entries k v (hdata k v hv), h.observed, hlive, h.agree⟩

/-- A handle for a resource that has an entry and no handle. -/
theorem Handles.newHandle (h : Handles s) (hv : v < s.made) (hdata : s.data (s.valueObj v).key = some v)
    (hnone : ∀ g, s.Live g → s.keyOf g ≠ (s.valueObj v).key) : Handles (s.newHandle v) := by
  have hkeyNew : (s.newHandle v).keyOf s.blocks = (s.valueObj v).key := by
    rw [keyOf, newHandle_block, newHandle_valueObj]
  -- A handle is the new one, or was there, for another resource.
  have hlive : ∀ f, (s.newHandle v).Live f → f = s.blocks ∨
      s.Live f ∧ (s.newHandle v).block f = s.block f ∧ (s.block f).valueObj ≠ v := fun f hf => by
    by_cases hfb : f = s.blocks
    · exact .inl hfb
    · unfold Live at hf
      rw [newHandle_block_of_ne hfb] at hf
      exact .inr ⟨hf, newHandle_block_of_ne hfb, fun hfv => hnone f hf (by rw [keyOf, hfv])⟩
  have hkeyOld : ∀ f, (s.newHandle v).block f = s.block f → (s.block f).valueObj ≠ v →
      (s.newHandle v).keyOf f = s.keyOf f := fun f hf hfv => by
    rw [keyOf, hf, newHandle_valueObj_of_ne hfv, keyOf]
  refine ⟨fun f hf => ?_, fun f => ?_, fun k w hw => ?_, fun f hf => ?_, fun hi f hf => ?_,
    fun f g hf hg hk => ?_⟩
  · by_cases hfb : f = s.blocks
    · exact hfb ▸ Nat.lt_succ_self _
    · rw [newHandle_block_of_ne hfb] at hf
      exact Nat.lt_succ_of_lt (h.bound f hf)
  · by_cases hfb : f = s.blocks
    · rw [hfb, Live, newHandle_block]
      simp [SharedResourceMap.newHandle]
    · have hlt : f < s.blocks + 1 ↔ f < s.blocks := by omega
      rw [Live, newHandle_block_of_ne hfb]
      exact (h.unused f).trans (and_congr_left fun _ => hlt.symm)
  · by_cases hwv : w = v
    · rw [hwv, newHandle_valueObj]
      exact ⟨hv, hwv ▸ (h.entries k w hw).2⟩
    · rw [newHandle_valueObj_of_ne hwv]
      exact h.entries k w hw
  · rcases hlive f hf with rfl | ⟨hf, hfb, hfv⟩
    · rw [newHandle_block, newHandle_valueObj]
    · rw [hfb, newHandle_valueObj_of_ne hfv]
      exact h.observed f hf
  · have hi := newHandle_inner hi
    rcases hlive f hf with rfl | ⟨hf, hfb, hfv⟩
    · rw [newHandle_block, hkeyNew]
      exact hdata
    · rw [hkeyOld f hfb hfv, hfb]
      exact h.entered hi f hf
  · rcases hlive f hf with rfl | ⟨hf, hfb, hfv⟩ <;> rcases hlive g hg with rfl | ⟨hg, hgb, hgv⟩
    · rfl
    · rw [hkeyNew, hkeyOld g hgb hgv] at hk
      exact absurd hk.symm (hnone g hg)
    · rw [hkeyNew, hkeyOld f hfb hfv] at hk
      exact absurd hk (hnone f hf)
    · rw [hkeyOld f hfb hfv, hkeyOld g hgb hgv] at hk
      rw [hfb, hgb]
      exact h.agree f g hf hg hk

/-- A `ValueObj_` without a handle is made. -/
theorem Handles.emplace [DecidableEq κ] (h : Handles s) (hl : Linked s) {key : κ}
    (hdata : s.data key = none) :
    Handles (s.emplace key) := by
  have htarget : ∀ f, s.Live f → (s.block f).valueObj < s.made :=
    fun f hf => hl.target f ((h.unused f).mp hf).1
  have hkey : ∀ f, s.Live f → (s.emplace key).keyOf f = s.keyOf f := fun f hf =>
    congrArg ValueObj.key (emplace_valueObj_of_lt (htarget f hf))
  refine ⟨h.bound, h.unused, fun k w hw => ?_, fun f hf => ?_, fun hi f hf => ?_, fun f g hf hg hk => ?_⟩
  · by_cases hk : k = key
    · have hw : w = s.made := by simpa [SharedResourceMap.emplace, hk, eq_comm] using hw
      rw [hw, emplace_valueObj, hk]
      exact ⟨Nat.lt_succ_self _, rfl⟩
    · have hw : s.data k = some w := by simpa [SharedResourceMap.emplace, hk] using hw
      obtain ⟨hlt, hwk⟩ := h.entries k w hw
      rw [emplace_valueObj_of_lt hlt]
      exact ⟨Nat.lt_succ_of_lt hlt, hwk⟩
  · exact (congrArg ValueObj.weakPtr (emplace_valueObj_of_lt (htarget f hf))).trans (h.observed f hf)
  · have hentered := h.entered hi f hf
    rw [hkey f hf]
    have hk : s.keyOf f ≠ key := fun hk => by
      rw [hk, hdata] at hentered
      cases hentered
    exact (Function.update_of_ne hk _ _).trans hentered
  · rw [hkey f hf, hkey g hg] at hk
    exact h.agree f g hf hg hk

/-! ## Steps -/

structure Inv (s : SharedResourceMap κ) : Prop where
  owners : Owners s
  handles : Handles s

theorem Owners.zero_of_entry (h : Owners s) (hv : v < s.made)
    (hdata : s.data (s.valueObj v).key = some v) :
    s.destroyed v = 0 := by
  rw [h.destroyed v hv, if_pos (owned_iff.mpr (.inl hdata))]

theorem letGo_createShared (s : SharedResourceMap κ) (v : Nat) :
    LetGo (s.newHandle v) (s.createShared v) := by
  unfold createShared
  split
  next g _ => exact letGo_releaseWeak _ _ g
  next => exact .refl _

theorem Inv.createShared (h : Inv s) (hv : v < s.made) (hdata : s.data (s.valueObj v).key = some v)
    (hnone : ∀ g, s.Live g → s.keyOf g ≠ (s.valueObj v).key) : Inv (s.createShared v) :=
  ⟨h.owners.createShared hv (h.owners.zero_of_entry hv hdata),
    (h.handles.newHandle hv hdata hnone).congr (letGo_createShared s v)⟩

theorem inner_of_map (h : s.map) : s.inner := inner_iff.mpr (.inl h)

/-- Where a resource has an entry, its handles are those of one control block. -/
theorem Handles.observed_of_entry (h : Handles s) (hi : s.inner) {key : κ}
    (hdata : s.data key = some v) {g : Nat}
    (hg : s.Live g) (hk : s.keyOf g = key) : (s.valueObj v).weakPtr = some g := by
  have hentered := h.entered hi g hg
  rw [hk, hdata] at hentered
  rw [Option.some.inj hentered]
  exact h.observed g hg

theorem Handles.not_live_of_expired (h : Handles s) (hi : s.inner) {key : κ}
    (hdata : s.data key = some v) (hexp : s.expired v)
    (hf : s.Live f) : s.keyOf f ≠ key := by
  intro hk
  unfold expired at hexp
  rw [h.observed_of_entry hi hdata hf hk] at hexp
  exact Nat.ne_of_gt hf (by simpa using hexp)

theorem Handles.not_live (h : Handles s) (hf : (s.block f).deleter ≠ .unused) : ¬s.Live f :=
  fun hl => hf ((h.unused f).mp hl).2

theorem inv_new (garbage : Nat → ValueObj κ) : Inv (new garbage) := by
  refine ⟨⟨⟨nofun, nofun, nofun⟩, nofun, nofun, nofun, fun _ _ => rfl⟩,
    ⟨?_, ?_, nofun, nofun, nofun, nofun⟩⟩
  · exact fun f hf => absurd rfl hf
  · exact fun f => iff_of_false (Nat.lt_irrefl 0) fun h => Nat.not_lt_zero f h.1

theorem setDeleter_inner {d : Deleter} (hd : d ≠ .locked ∧ d ≠ .leaving)
    (hi : (s.setDeleter f d).inner) : s.inner := by
  refine inner_of_block (fun g hg => ?_) hi
  by_cases hgf : g = f
  · simp [hgf, hd] at hg
  · simpa [hgf] using hg

/-- A deleter goes on. -/
theorem Inv.setRunning (h : Inv s) {d d' : Deleter} (hf : (s.block f).deleter = d) (hd : d.running)
    (hd' : d'.running) (hearly : d'.early → d.early) (hinner : (s.setDeleter f d').inner → s.inner) :
    Inv (s.setDeleter f d') := by
  obtain ⟨hunused, hdone⟩ := Deleter.running_iff.mp hd
  obtain ⟨hunused', hdone'⟩ := Deleter.running_iff.mp hd'
  refine ⟨h.owners.setRunning f hdone' (hf ▸ hearly), ?_⟩
  exact h.handles.setDeleter (h.handles.not_live (hf ▸ hunused)) (hf ▸ hdone) hunused' hinner

theorem Inv.setReturning (h : Inv s) (hf : (s.block f).deleter = .leaving) :
    Inv (s.setDeleter f .returning) :=
  h.setRunning hf rfl rfl (by decide) (setDeleter_inner (by decide))

/-- `Inner` exists as long as a deleter has locked it. -/
theorem Handles.inner_of_locked (h : Handles s)
    (hf : (s.block f).deleter = .locked ∨ (s.block f).deleter = .leaving) :
    s.inner := by
  refine inner_iff.mpr (.inr ⟨f, h.bound f fun hd => ?_, hf⟩)
  simp [hd] at hf

theorem Inv.setLeaving (h : Inv s) (hf : (s.block f).deleter = .locked) :
    Inv (s.setDeleter f .leaving) :=
  h.setRunning hf rfl rfl (by decide) fun _ => h.handles.inner_of_locked (.inl hf)

theorem Inv.destroyMap (h : Inv s) (hmap : s.map) : Inv { s with map := false } := by
  have hi := inner_of_map hmap
  obtain ⟨⟨⟨htarget, hweakPtr, hcaptured⟩, hobserved, hearly, hdestroyed, hfresh⟩,
    hbound, hunused, hentries, hlive, hentered, hagree⟩ := h
  refine ⟨⟨⟨htarget, hweakPtr, hcaptured⟩, hobserved, hearly, hdestroyed, hfresh⟩, ?_⟩
  exact ⟨hbound, hunused, hentries, hlive, fun _ => hentered hi, hagree⟩

variable [DecidableEq κ]

theorem Inv.getResource (h : Inv s) (hmap : s.map) (key : κ) : Inv (s.getResource key) := by
  have hi := inner_of_map hmap
  unfold SharedResourceMap.getResource
  split
  next v hv =>
    obtain ⟨hlt, hkey⟩ := h.handles.entries key v hv
    split
    next f hf =>
      split
      next hzero =>
        refine h.createShared hlt (hkey.symm ▸ hv) fun g hg hk => ?_
        have hgf := h.handles.observed_of_entry hi hv hg (hk.trans hkey)
        rw [hf] at hgf
        cases hgf
        exact Nat.ne_of_gt hg hzero
      next hpos => exact ⟨h.owners.setUseCount f _,
        h.handles.setUseCount (Nat.pos_of_ne_zero hpos) (Nat.succ_pos _)⟩
    next hf =>
      refine h.createShared hlt (hkey.symm ▸ hv) fun g hg hk => ?_
      have hgf := h.handles.observed_of_entry hi hv hg (hk.trans hkey)
      rw [hf] at hgf
      cases hgf
  next hnone =>
    have hinv : Inv (s.emplace key) := ⟨h.owners.emplace hnone, h.handles.emplace h.owners.linked hnone⟩
    refine hinv.createShared (Nat.lt_succ_self _) ?_ fun g hg hk => ?_
    · rw [emplace_valueObj]
      exact Function.update_self ..
    · rw [emplace_valueObj] at hk
      have hobserved := hinv.handles.observed_of_entry hi (Function.update_self ..) hg hk
      rw [emplace_valueObj] at hobserved
      cases hobserved

/-- The section of a deleter erases an entry without handles, or nothing. -/
theorem letGo_deleteSection (s : SharedResourceMap κ) (f : Nat) :
    LetGo s (s.deleteSection f) ∧ (∀ w, s.data (s.keyOf f) = some w → ¬s.expired w) ∨
      ∃ w, s.data (s.keyOf f) = some w ∧ s.expired w ∧
        LetGo ((s.uncapture f).erase (s.keyOf f)) (s.deleteSection f) := by
  unfold SharedResourceMap.deleteSection
  dsimp only
  split
  next w hw =>
    split
    next hexp =>
      have hletGo := letGo_release chain (s.uncapture f) (s.block f).valueObj
      refine .inr ⟨w, hw, hexp, (hletGo.setData (s.erase (s.keyOf f)).data).trans ?_⟩
      have hdata : (s.erase (s.keyOf f)).data =
          (erase (release chain (s.uncapture f) (s.block f).valueObj) (s.keyOf f)).data := by
        unfold erase
        rw [hletGo.data]
        rfl
      rw [hdata]
      exact letGo_release chain _ w
    next hexp => exact .inl ⟨.refl s, fun u hu => by cases hw.symm.trans hu; exact hexp⟩
  next hnone => exact .inl ⟨.refl s, fun u hu => by cases hnone.symm.trans hu⟩

theorem Handles.deleteSection (h : Handles s) (hi : s.inner) (f : Nat) :
    Handles (s.deleteSection f) := by
  rcases letGo_deleteSection s f with ⟨hletGo, -⟩ | ⟨w, hw, hexp, hletGo⟩
  · exact h.congr hletGo
  · have hlost := letGo_uncapture s f
    refine Handles.congr ((h.congr hlost).setData (fun k v hv => ?_) fun _ g hg => ?_) hletGo
    · by_cases hk : k = s.keyOf f
      · simp [hk] at hv
      · simpa [hk] using hv
    · have hg := hlost.live.mp hg
      rw [hlost.keyOf, hlost.target]
      exact (Function.update_of_ne (h.not_live_of_expired hi hw hexp hg) _ _).trans (h.entered hi g hg)

theorem Inv.deleteSection (h : Inv s) (hf : (s.block f).deleter = .locked) :
    Inv ((s.setDeleter f .leaving).deleteSection f) := by
  have h' := h.setLeaving hf
  have hleaving : ((s.setDeleter f .leaving).block f).deleter = .leaving := by simp [setDeleter]
  have hcaptured : ((s.setDeleter f .leaving).block f).captured := by
    have hcaptured := h.owners.early f (h.handles.bound f (by simp [hf])) (by simp [hf, Deleter.early])
    simpa [setDeleter] using hcaptured
  exact ⟨h'.owners.deleteSection h'.handles.entries hcaptured (by rw [hleaving]; rfl),
    h'.handles.deleteSection (h'.handles.inner_of_locked (.inr hleaving)) f⟩

theorem Inv.destroyInner (h : Inv s) : Inv s.destroyInner := by
  obtain ⟨howners, hletGo⟩ := h.owners.destroyInner h.handles.entries
  refine ⟨howners, Handles.congr (h.handles.setData (fun k v hv => ?_) fun hi f hf => ?_) hletGo⟩
  · split at hv
    next => exact hv
    next => cases hv
  · rw [if_pos hi]
    exact h.handles.entered hi f hf

theorem next_inv (h : Inv s) (a : Act κ) : (next s a).Ok Inv := by
  cases a with
  | getResource key =>
    simp only [next, ok_bind, ok_requiring]
    exact fun hmap => h.getResource hmap key
  | copy f =>
    simp only [next, ok_bind, ok_requiring]
    exact fun hf => ⟨h.owners.setUseCount f _, h.handles.setUseCount hf (Nat.succ_pos _)⟩
  | drop f =>
    simp only [next, ok_bind, ok_requiring]
    intro hf
    have hcount : ((s.setUseCount f ((s.block f).useCount - 1)).block f).useCount =
        (s.block f).useCount - 1 := by
      simp [setUseCount]
    rw [hcount]
    by_cases hlast : (s.block f).useCount - 1 = 0
    · have hunused := ((h.handles.unused f).mp hf).2
      rw [if_pos hlast, hlast]
      refine ⟨(h.owners.setUseCount f 0).setRunning f (by decide) fun _ => ?_, h.handles.dropLast hf⟩
      simp [setUseCount, hunused, Deleter.early]
    · rw [if_neg hlast]
      exact ⟨h.owners.setUseCount f _, h.handles.setUseCount hf (Nat.pos_of_ne_zero hlast)⟩
  | lock f =>
    simp only [next, ok_bind, ok_requiring]
    intro hf
    split
    next hi => exact h.setRunning hf rfl rfl (by decide) fun _ => hi
    next => exact h.setRunning hf rfl rfl (by decide) (setDeleter_inner (by decide))
  | deleteSection f =>
    simp only [next, ok_bind, ok_requiring]
    exact fun hf => h.deleteSection hf
  | leave f =>
    simp only [next, ok_bind, ok_requiring]
    exact fun hf => (h.setReturning hf).destroyInner
  | finish f =>
    simp only [next, ok_bind, ok_requiring]
    intro hf
    have hnot : ¬s.Live f := h.handles.not_live (by simp [hf])
    refine ⟨(h.owners.setDeleter f (d := .done) fun hd => by cases hd).releaseWeak 1,
      Handles.congr ?_ (letGo_releaseWeak chain _ f)⟩
    exact h.handles.setDeleter hnot (by simp [hf]) (by decide) (setDeleter_inner (by decide))
  | destroy =>
    simp only [next, ok_bind, ok_requiring]
    exact fun hmap => (h.destroyMap hmap).destroyInner

/-! ## Agreement -/

theorem Inv.data_destroyInner (h : Inv s) (hi : s.inner) : s.destroyInner.data = s.data := by
  rw [(h.owners.destroyInner h.handles.entries).2.data]
  exact if_pos hi

theorem Inv.map_destroyInner (h : Inv s) : s.destroyInner.map = s.map :=
  (h.owners.destroyInner h.handles.entries).2.map

end SharedResourceMap
