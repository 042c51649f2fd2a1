/-
What the steps of a `SharedResourceMap` do to its objects.

Letting go of references changes nothing but what is captured and what is
destroyed (`LetGo`). `Linked` ties the control blocks to the `ValueObj_`s; where
it holds, a `ValueObj_` goes alone (`release_eq`), and a resource is destroyed
once, when its last owner goes (`Owners`).
-/
import CxxHeaders.SharedResourceMap
import Mathlib.Data.List.Basic

open Outcome

/-- The last handle is gone, and the deleter has not returned. -/
def Deleter.running : Deleter → Bool
  | .unused | .done => false
  | _ => true

theorem Deleter.running_iff {d : Deleter} : d.running ↔ d ≠ .unused ∧ d ≠ .done := by
  cases d <;> simp [running]

/-- The deleter has not been through its section. -/
def Deleter.early : Deleter → Bool
  | .unused | .pending | .locked => true
  | _ => false

namespace SharedResourceMap

variable {κ : Type} {s t u : SharedResourceMap κ} {f v : Nat}

theorem owned_iff : s.owned v ↔ s.data (s.valueObj v).key = some v ∨
    ∃ f < s.blocks, (s.block f).captured ∧ (s.block f).valueObj = v := by
  simp [owned]

theorem observed_iff : s.observed f ↔ (s.block f).deleter ≠ .done ∨
    ∃ v < s.made, s.destroyed v = 0 ∧ (s.valueObj v).weakPtr = some f := by
  simp [observed]

theorem inner_iff : s.inner ↔ s.map ∨
    ∃ f < s.blocks, (s.block f).deleter = .locked ∨ (s.block f).deleter = .leaving := by
  simp [inner]

/-! ## What a thread can see -/

/-- References were let go: less is captured and more is destroyed, and that is
all. -/
structure LetGo (s t : SharedResourceMap κ) : Prop where
  map : t.map = s.map
  data : t.data = s.data
  valueObj : t.valueObj = s.valueObj
  made : t.made = s.made
  blocks : t.blocks = s.blocks
  target : ∀ f, (t.block f).valueObj = (s.block f).valueObj
  useCount : ∀ f, (t.block f).useCount = (s.block f).useCount
  deleter : ∀ f, (t.block f).deleter = (s.block f).deleter
  captured : ∀ f, (t.block f).captured → (s.block f).captured
  destroyed : ∀ v, s.destroyed v ≤ t.destroyed v

theorem LetGo.refl (s : SharedResourceMap κ) : LetGo s s :=
  ⟨rfl, rfl, rfl, rfl, rfl, fun _ => rfl, fun _ => rfl, fun _ => rfl, fun _ h => h, fun _ => Nat.le_refl _⟩

theorem LetGo.trans (h : LetGo s t) (h' : LetGo t u) : LetGo s u :=
  ⟨h'.map.trans h.map, h'.data.trans h.data, h'.valueObj.trans h.valueObj, h'.made.trans h.made,
    h'.blocks.trans h.blocks, fun f => (h'.target f).trans (h.target f),
    fun f => (h'.useCount f).trans (h.useCount f), fun f => (h'.deleter f).trans (h.deleter f),
    fun f hf => h.captured f (h'.captured f hf), fun v => Nat.le_trans (h.destroyed v) (h'.destroyed v)⟩

theorem LetGo.setData (h : LetGo s t) (data : κ → Option Nat) :
    LetGo { s with data := data } { t with data := data } :=
  ⟨h.map, rfl, h.valueObj, h.made, h.blocks, h.target, h.useCount, h.deleter, h.captured, h.destroyed⟩

theorem LetGo.inner (h : LetGo s t) : t.inner = s.inner := by
  unfold SharedResourceMap.inner
  simp only [h.map, h.blocks, h.deleter]

theorem letGo_destroyResource (s : SharedResourceMap κ) (v : Nat) : LetGo s (s.destroyResource v) := by
  refine ⟨rfl, rfl, rfl, rfl, rfl, fun _ => rfl, fun _ => rfl, fun _ => rfl, fun _ h => h, fun w => ?_⟩
  by_cases hw : w = v <;> simp [destroyResource, hw]

theorem letGo_uncapture (s : SharedResourceMap κ) (f : Nat) : LetGo s (s.uncapture f) := by
  refine ⟨rfl, rfl, rfl, rfl, rfl, fun g => ?_, fun g => ?_, fun g => ?_, fun g => ?_,
    fun _ => Nat.le_refl _⟩ <;>
    by_cases hg : g = f <;> simp [uncapture, hg]

theorem captured_uncapture {g : Nat} :
    ((s.uncapture f).block g).captured ↔ g ≠ f ∧ (s.block g).captured := by
  by_cases hg : g = f <;> simp [uncapture, hg]

theorem letGo_release_releaseWeak : ∀ (fuel : Nat),
    (∀ (s : SharedResourceMap κ) v, LetGo s (release fuel s v)) ∧
      ∀ (s : SharedResourceMap κ) f, LetGo s (releaseWeak fuel s f)
  | 0 => ⟨fun s _ => .refl s, fun s _ => .refl s⟩
  | fuel + 1 => by
    obtain ⟨hrelease, hweak⟩ := letGo_release_releaseWeak fuel
    refine ⟨fun s v => ?_, fun s f => ?_⟩
    · unfold release
      split
      next => exact .refl s
      next =>
        split
        next f _ => exact (letGo_destroyResource s v).trans (hweak _ f)
        next => exact letGo_destroyResource s v
    · unfold releaseWeak
      split
      next => exact .refl s
      next =>
        split
        next => exact (letGo_uncapture s f).trans (hrelease _ _)
        next => exact .refl s

theorem letGo_release (fuel : Nat) (s : SharedResourceMap κ) (v : Nat) : LetGo s (release fuel s v) :=
  (letGo_release_releaseWeak fuel).1 s v

theorem letGo_releaseWeak (fuel : Nat) (s : SharedResourceMap κ) (f : Nat) :
    LetGo s (releaseWeak fuel s f) :=
  (letGo_release_releaseWeak fuel).2 s f

/-! ## What is made -/

theorem newHandle_block (s : SharedResourceMap κ) (v : Nat) :
    (s.newHandle v).block s.blocks = ⟨v, true, 1, .unused⟩ := Function.update_self ..

theorem newHandle_block_of_ne (hf : f ≠ s.blocks) : (s.newHandle v).block f = s.block f :=
  Function.update_of_ne hf _ _

theorem newHandle_valueObj (s : SharedResourceMap κ) (v : Nat) :
    (s.newHandle v).valueObj v = ⟨(s.valueObj v).key, some s.blocks⟩ := Function.update_self ..

theorem newHandle_valueObj_of_ne {w : Nat} (hw : w ≠ v) : (s.newHandle v).valueObj w = s.valueObj w :=
  Function.update_of_ne hw _ _

theorem newHandle_key (s : SharedResourceMap κ) (v w : Nat) :
    ((s.newHandle v).valueObj w).key = (s.valueObj w).key := by
  by_cases hw : w = v
  · rw [hw, newHandle_valueObj]
  · rw [newHandle_valueObj_of_ne hw]

theorem newHandle_inner (hf : (s.newHandle v).inner) : s.inner := by
  refine inner_iff.mpr ((inner_iff.mp hf).imp_right fun ⟨g, hg, hd⟩ => ?_)
  have hgb : g ≠ s.blocks := fun hgb => by simp [hgb, newHandle_block] at hd
  rw [newHandle_block_of_ne hgb] at hd
  have hg : g < s.blocks + 1 := hg
  exact ⟨g, by omega, hd⟩

theorem emplace_valueObj [DecidableEq κ] (s : SharedResourceMap κ) (key : κ) :
    (s.emplace key).valueObj s.made = ⟨key, none⟩ := Function.update_self ..

theorem emplace_valueObj_of_lt [DecidableEq κ] {key : κ} (hv : v < s.made) :
    (s.emplace key).valueObj v = s.valueObj v :=
  Function.update_of_ne (Nat.ne_of_lt hv) _ _

/-! ## Letting go -/

/-- Weak pointers and captured pointers go between the same two objects. -/
structure Linked (s : SharedResourceMap κ) : Prop where
  target : ∀ f < s.blocks, (s.block f).valueObj < s.made
  weakPtr : ∀ v < s.made, ∀ f, (s.valueObj v).weakPtr = some f → f < s.blocks ∧ (s.block f).valueObj = v
  captured : ∀ f, (s.block f).captured → f < s.blocks

/-- A `std::weak_ptr` of a `ValueObj_` that nothing owns frees nothing else. -/
theorem Linked.releaseWeak_unowned (h : Linked s) (hv : v < s.made)
    (hf : (s.valueObj v).weakPtr = some f)
    (ho : ¬s.owned v) (fuel : Nat) : releaseWeak fuel s f = s := by
  obtain ⟨hlt, htarget⟩ := h.weakPtr v hv f hf
  have hcap : ¬(s.block f).captured := fun hcap => ho (owned_iff.mpr (.inr ⟨f, hlt, hcap, htarget⟩))
  cases fuel with
  | zero => rfl
  | succ fuel =>
    unfold releaseWeak
    simp only [if_neg hcap, ite_self]

theorem Linked.destroyResource (h : Linked s) (v : Nat) : Linked (s.destroyResource v) := by
  obtain ⟨htarget, hweakPtr, hcaptured⟩ := h
  exact ⟨htarget, hweakPtr, hcaptured⟩

theorem Linked.uncapture (h : Linked s) (f : Nat) : Linked (s.uncapture f) := by
  have hletGo := letGo_uncapture s f
  refine ⟨fun g hg => ?_, fun v hv g hg => ?_, fun g hg => h.captured g (captured_uncapture.mp hg).2⟩
  · rw [hletGo.target]
    exact h.target g hg
  · rw [hletGo.target]
    exact h.weakPtr v hv g hg

theorem release_eq (h : Linked s) (hv : v < s.made) (fuel : Nat) :
    release (fuel + 1) s v = if s.owned v then s else s.destroyResource v := by
  unfold release
  split
  next => rfl
  next ho =>
    cases hf : (s.valueObj v).weakPtr with
    | none => rfl
    | some f => exact (h.destroyResource v).releaseWeak_unowned hv hf ho fuel

/-! ## Owners -/

/-- Every resource is destroyed once, when nothing owns it; and a control block
that nothing observes captures nothing. -/
structure Owners (s : SharedResourceMap κ) : Prop where
  linked : Linked s
  observed : ∀ f, (s.block f).captured → s.observed f
  early : ∀ f < s.blocks, (s.block f).deleter.early → (s.block f).captured
  destroyed : ∀ v < s.made, s.destroyed v = if s.owned v then 0 else 1
  fresh : ∀ v, s.made ≤ v → s.destroyed v = 0

/-- The same, but `v` may have lost its last owner. -/
structure LostOwner (s : SharedResourceMap κ) (v : Nat) : Prop where
  linked : Linked s
  observed : ∀ f, (s.block f).captured → s.observed f
  early : ∀ f < s.blocks, (s.block f).deleter.early → (s.block f).captured
  lt : v < s.made
  zero : s.destroyed v = 0
  destroyed : ∀ w < s.made, w ≠ v → s.destroyed w = if s.owned w then 0 else 1
  fresh : ∀ v, s.made ≤ v → s.destroyed v = 0

/-- The same, but `f` may have lost its last observer. -/
structure LostObserver (s : SharedResourceMap κ) (f : Nat) : Prop where
  linked : Linked s
  observed : ∀ g, g ≠ f → (s.block g).captured → s.observed g
  early : ∀ f < s.blocks, (s.block f).deleter.early → (s.block f).captured
  destroyed : ∀ v < s.made, s.destroyed v = if s.owned v then 0 else 1
  fresh : ∀ v, s.made ≤ v → s.destroyed v = 0

theorem LostOwner.release (h : LostOwner s v) (fuel : Nat) : Owners (release (fuel + 1) s v) := by
  obtain ⟨hlinked, hobserved, hearly, hv, hzero, hdestroyed, hfresh⟩ := h
  rw [release_eq hlinked hv]
  split
  next ho =>
    refine ⟨hlinked, hobserved, hearly, fun w hw => ?_, hfresh⟩
    by_cases hwv : w = v
    · rw [hwv, hzero, if_pos ho]
    · exact hdestroyed w hw hwv
  next ho =>
    refine ⟨hlinked.destroyResource v, fun f hf => ?_, hearly, fun w hw => ?_, fun w hw => ?_⟩
    · rcases observed_iff.mp (hobserved f hf) with hd | ⟨w, hw, hwz, hwf⟩
      · exact observed_iff.mpr (.inl hd)
      · refine observed_iff.mpr (.inr ⟨w, hw, ?_, hwf⟩)
        -- What `v` observes would own it.
        have hwv : w ≠ v := fun hwv => ho (owned_iff.mpr (.inr ⟨f, (hlinked.weakPtr w hw f hwf).1, hf,
          (hlinked.weakPtr w hw f hwf).2.trans hwv⟩))
        exact (Function.update_of_ne hwv _ _).trans hwz
    · have howned : (s.destroyResource v).owned w = s.owned w := rfl
      rw [howned]
      by_cases hwv : w = v
      · simp [SharedResourceMap.destroyResource, hwv, hzero, ho]
      · simp only [SharedResourceMap.destroyResource, Function.update_of_ne hwv]
        exact hdestroyed w hw hwv
    · have hwv : w ≠ v := fun hwv => by
        have hw : s.made ≤ w := hw
        omega
      exact (Function.update_of_ne hwv _ _).trans (hfresh w hw)

theorem owned_uncapture {w : Nat} (hw : w ≠ (s.block f).valueObj) :
    (s.uncapture f).owned w = s.owned w := by
  have hletGo := letGo_uncapture s f
  rw [Bool.eq_iff_iff, owned_iff, owned_iff]
  refine or_congr Iff.rfl (exists_congr fun g => and_congr_right fun _ => ?_)
  rw [hletGo.target, captured_uncapture, and_assoc]
  exact and_iff_right_of_imp fun hg hgf => hw (hgf ▸ hg.2.symm)

theorem observed_uncapture {g : Nat} : (s.uncapture f).observed g = s.observed g := by
  have hletGo := letGo_uncapture s f
  rw [Bool.eq_iff_iff, observed_iff, observed_iff, hletGo.deleter]
  rfl

theorem LostObserver.uncapture (h : LostObserver s f) (hf : (s.block f).captured)
    (hd : (s.block f).deleter.early = false) :
    LostOwner (s.uncapture f) (s.block f).valueObj := by
  have hletGo := letGo_uncapture s f
  have hlt := h.linked.captured f hf
  refine ⟨h.linked.uncapture f, fun g hg => ?_, fun g hlt hg => ?_, h.linked.target f hlt, ?_,
    fun w hw hwv => ?_, h.fresh⟩
  · rw [observed_uncapture]
    exact h.observed g (captured_uncapture.mp hg).1 (captured_uncapture.mp hg).2
  · rw [hletGo.deleter] at hg
    refine captured_uncapture.mpr ⟨fun hgf => ?_, h.early g hlt hg⟩
    rw [hgf, hd] at hg
    cases hg
  · have hdestroyed := h.destroyed _ (h.linked.target f hlt)
    rwa [if_pos (owned_iff.mpr (.inr ⟨f, hlt, hf, rfl⟩))] at hdestroyed
  · rw [owned_uncapture hwv]
    exact h.destroyed w hw

theorem LostObserver.owners (h : LostObserver s f) (hf : (s.block f).captured → s.observed f) :
    Owners s :=
  ⟨h.linked, fun g hg => if hgf : g = f then hgf ▸ hf (hgf ▸ hg) else h.observed g hgf hg, h.early,
    h.destroyed, h.fresh⟩

theorem LostObserver.releaseWeak (h : LostObserver s f) (fuel : Nat) :
    Owners (releaseWeak (fuel + 2) s f) := by
  unfold SharedResourceMap.releaseWeak
  split
  next ho => exact h.owners fun _ => ho
  next ho =>
    split
    next hf =>
      have hd : (s.block f).deleter.early = false := by
        cases hd : (s.block f).deleter with
        | done => rfl
        | _ => exact absurd (observed_iff.mpr (.inl (by simp [hd]))) ho
      exact (h.uncapture hf hd).release fuel
    next hf => exact h.owners fun hc => absurd hc hf

theorem Owners.lostObserver (h : Owners s) (f : Nat) : LostObserver s f :=
  ⟨h.linked, fun g _ hg => h.observed g hg, h.early, h.destroyed, h.fresh⟩

/-- The use counts and the deleters are others; that of `f` may be done. -/
theorem Owners.congr (h : Owners s) {block : Nat → ControlBlock}
    (htarget : ∀ g, (block g).valueObj = (s.block g).valueObj)
    (hcaptured : ∀ g, (block g).captured = (s.block g).captured)
    (hdone : ∀ g, g ≠ f → (block g).deleter = .done → (s.block g).deleter = .done)
    (hearly : ∀ g, (block g).deleter.early → (s.block g).deleter.early) :
    LostObserver { s with block := block } f := by
  have howned : ∀ v, owned { s with block := block } v = s.owned v := fun v => by
    unfold owned
    simp only [htarget, hcaptured]
  refine ⟨⟨fun g hg => ?_, fun v hv g hg => ?_, fun g hg => ?_⟩, fun g hgf hg => ?_,
    fun g hg hd => ?_, fun v hv => ?_,
    h.fresh⟩
  · rw [htarget]
    exact h.linked.target g hg
  · rw [htarget]
    exact h.linked.weakPtr v hv g hg
  · rw [hcaptured] at hg
    exact h.linked.captured g hg
  · rw [hcaptured] at hg
    exact observed_iff.mpr ((observed_iff.mp (h.observed g hg)).imp_left (mt (hdone g hgf)))
  · rw [hcaptured]
    exact h.early g hg (hearly g hd)
  · rw [howned]
    exact h.destroyed v hv

theorem Owners.setUseCount (h : Owners s) (f n : Nat) : Owners (s.setUseCount f n) := by
  have hlost : LostObserver (s.setUseCount f n) f := by
    refine h.congr (fun g => ?_) (fun g => ?_) (fun g _ => ?_) fun g => ?_ <;>
      by_cases hg : g = f <;> simp [hg]
  refine hlost.owners fun hf => ?_
  have hf := h.observed f (by simpa [SharedResourceMap.setUseCount] using hf)
  simpa [observed_iff, SharedResourceMap.setUseCount] using hf

theorem Owners.setDeleter (h : Owners s) (f : Nat) {d : Deleter}
    (hearly : d.early → (s.block f).deleter.early) :
    LostObserver (s.setDeleter f d) f := by
  refine h.congr (fun g => ?_) (fun g => ?_) (fun g hg => by simp [hg]) fun g => ?_ <;>
    by_cases hg : g = f <;> simp [hg]
  exact hearly

/-- A deleter that is not done observes its control block. -/
theorem Owners.setRunning (h : Owners s) (f : Nat) {d : Deleter} (hdone : d ≠ .done)
    (hearly : d.early → (s.block f).deleter.early) : Owners (s.setDeleter f d) :=
  (h.setDeleter f hearly).owners fun _ =>
    observed_iff.mpr (.inl (by simp [SharedResourceMap.setDeleter, hdone]))

/-- What `weakPtr` observed before may be observed no more. -/
theorem Owners.newHandle (h : Owners s) (hv : v < s.made) (hzero : s.destroyed v = 0) {g : Nat}
    (hg : ∀ f, (s.valueObj v).weakPtr = some f → f = g) : LostObserver (s.newHandle v) g := by
  have hlt : ∀ f, f < s.blocks + 1 ↔ f = s.blocks ∨ f < s.blocks := fun f => by omega
  refine ⟨⟨fun f hf => ?_, fun w hw f hf => ?_, fun f hf => ?_⟩, fun f hfg hf => ?_,
    fun f hf hd => ?_, fun w hw => ?_,
    h.fresh⟩
  · rcases (hlt f).mp hf with rfl | hf
    · rw [newHandle_block]
      exact hv
    · rw [newHandle_block_of_ne (Nat.ne_of_lt hf)]
      exact h.linked.target f hf
  · by_cases hwv : w = v
    · rw [hwv, newHandle_valueObj] at hf
      cases hf
      exact ⟨Nat.lt_succ_self _, by rw [newHandle_block, hwv]⟩
    · rw [newHandle_valueObj_of_ne hwv] at hf
      obtain ⟨hflt, hfw⟩ := h.linked.weakPtr w hw f hf
      exact ⟨Nat.lt_succ_of_lt hflt, by rw [newHandle_block_of_ne (Nat.ne_of_lt hflt), hfw]⟩
  · by_cases hfb : f = s.blocks
    · exact (hlt f).mpr (.inl hfb)
    · rw [newHandle_block_of_ne hfb] at hf
      exact (hlt f).mpr (.inr (h.linked.captured f hf))
  · by_cases hfb : f = s.blocks
    · exact observed_iff.mpr (.inl (by rw [hfb, newHandle_block]; exact nofun))
    · rw [newHandle_block_of_ne hfb] at hf
      have hblock := newHandle_block_of_ne (v := v) hfb
      refine observed_iff.mpr ((observed_iff.mp (h.observed f hf)).imp (hblock ▸ ·) fun ⟨w, hw, hz, hwf⟩ => ?_)
      have hwv : w ≠ v := fun hwv => hfg (hg f (hwv ▸ hwf))
      exact ⟨w, hw, hz, by rw [newHandle_valueObj_of_ne hwv, hwf]⟩
  · rcases (hlt f).mp hf with rfl | hf
    · rw [newHandle_block]
    · rw [newHandle_block_of_ne (Nat.ne_of_lt hf)] at hd ⊢
      exact h.early f hf hd
  · by_cases hwv : w = v
    · have ho : (s.newHandle v).owned w :=
        owned_iff.mpr (.inr ⟨s.blocks, Nat.lt_succ_self _, by rw [newHandle_block],
          by rw [newHandle_block, hwv]⟩)
      rw [if_pos ho, hwv]
      exact hzero
    · have ho : (s.newHandle v).owned w = s.owned w := by
        rw [Bool.eq_iff_iff, owned_iff, owned_iff, newHandle_key]
        refine or_congr Iff.rfl ⟨fun ⟨f, hf, hc, hfw⟩ => ?_, fun ⟨f, hf, hc, hfw⟩ => ?_⟩
        · rcases (hlt f).mp hf with rfl | hf
          · rw [newHandle_block] at hfw
            exact absurd hfw.symm hwv
          · rw [newHandle_block_of_ne (Nat.ne_of_lt hf)] at hc hfw
            exact ⟨f, hf, hc, hfw⟩
        · exact ⟨f, Nat.lt_succ_of_lt hf, by rwa [newHandle_block_of_ne (Nat.ne_of_lt hf)],
            by rwa [newHandle_block_of_ne (Nat.ne_of_lt hf)]⟩
      rw [ho]
      exact h.destroyed w hw

theorem Owners.createShared (h : Owners s) (hv : v < s.made) (hzero : s.destroyed v = 0) :
    Owners (s.createShared v) := by
  unfold SharedResourceMap.createShared
  split
  next g hg =>
    refine (h.newHandle hv hzero fun f hf => ?_).releaseWeak 1
    exact Option.some.inj (hf.symm.trans hg)
  next hnone =>
    refine (h.newHandle hv hzero (g := s.blocks) fun f hf => ?_).owners fun _ => ?_
    · rw [hnone] at hf
      cases hf
    · exact observed_iff.mpr (.inl (by simp [SharedResourceMap.newHandle]))

section

variable [DecidableEq κ] {key : κ}

theorem Owners.erase (h : Owners s) (hv : v < s.made) (hdata : s.data (s.valueObj v).key = some v) :
    LostOwner (s.erase (s.valueObj v).key) v := by
  have howned : ∀ w, w ≠ v → (s.erase (s.valueObj v).key).owned w = s.owned w := fun w hw => by
    have hne : s.data (s.valueObj v).key ≠ some w :=
      fun hw' => hw (Option.some.inj (hw'.symm.trans hdata))
    rw [Bool.eq_iff_iff, owned_iff, owned_iff]
    refine or_congr_left ?_
    by_cases hk : (s.valueObj w).key = (s.valueObj v).key
    · simp [SharedResourceMap.erase, hk, hne]
    · simp [SharedResourceMap.erase, hk]
  obtain ⟨⟨htarget, hweakPtr, hcaptured⟩, hobserved, hearly, hdestroyed, hfresh⟩ := h
  refine ⟨⟨htarget, hweakPtr, hcaptured⟩, hobserved, hearly, hv, ?_, fun w hw hwv => ?_, hfresh⟩
  · have hzero := hdestroyed v hv
    rwa [if_pos (owned_iff.mpr (.inl hdata))] at hzero
  · rw [howned w hwv]
    exact hdestroyed w hw

theorem Owners.emplace (h : Owners s) (hdata : s.data key = none) :
    Owners (s.emplace key) := by
  have hself : (s.emplace key).owned s.made := by
    refine owned_iff.mpr (.inl ?_)
    rw [emplace_valueObj]
    exact Function.update_self ..
  have howned : ∀ w < s.made, (s.emplace key).owned w = s.owned w := fun w hw => by
    rw [Bool.eq_iff_iff, owned_iff, owned_iff, emplace_valueObj_of_lt hw]
    refine or_congr_left ?_
    by_cases hk : (s.valueObj w).key = key
    · have hne : s.made ≠ w := by omega
      simp [SharedResourceMap.emplace, hk, hdata, hne]
    · simp [SharedResourceMap.emplace, hk]
  refine ⟨⟨fun f hf => Nat.lt_succ_of_lt (h.linked.target f hf), fun v hv f hf => ?_, h.linked.captured⟩, fun f hf => ?_,
    h.early, fun v hv => ?_, fun v hv => h.fresh v (by have hv : s.made + 1 ≤ v := hv; omega)⟩
  · rcases Nat.lt_succ_iff_lt_or_eq.mp hv with hv | rfl
    · rw [emplace_valueObj_of_lt hv] at hf
      exact h.linked.weakPtr v hv f hf
    · rw [emplace_valueObj] at hf
      cases hf
  · refine observed_iff.mpr ((observed_iff.mp (h.observed f hf)).imp_right fun ⟨w, hw, hz, hwf⟩ => ?_)
    exact ⟨w, Nat.lt_succ_of_lt hw, hz, by rw [emplace_valueObj_of_lt hw, hwf]⟩
  · rcases Nat.lt_succ_iff_lt_or_eq.mp hv with hv | rfl
    · rw [howned v hv]
      exact h.destroyed v hv
    · rw [if_pos hself]
      exact h.fresh s.made (Nat.le_refl _)

/-- Entries are those of their keys. -/
def Entries (s : SharedResourceMap κ) : Prop := ∀ k v, s.data k = some v → v < s.made ∧ (s.valueObj v).key = k

theorem Owners.deleteSection (h : Owners s) (hentries : Entries s) (hf : (s.block f).captured)
    (hd : (s.block f).deleter.early = false) : Owners (s.deleteSection f) := by
  unfold SharedResourceMap.deleteSection
  dsimp only
  split
  next w hw =>
    split
    next =>
      have h' := ((h.lostObserver f).uncapture hf hd).release 2
      have hletGo := (letGo_uncapture s f).trans (letGo_release 3 (s.uncapture f) (s.block f).valueObj)
      obtain ⟨hlt, hkey⟩ := hentries _ w hw
      rw [← hkey] at hw ⊢
      rw [← hletGo.valueObj, ← hletGo.data] at hw
      rw [← hletGo.made] at hlt
      have hlost := h'.erase hlt hw
      rw [hletGo.valueObj] at hlost
      exact hlost.release 2
    next => exact h
  next => exact h

theorem Owners.dropEntry (h : Owners s) (hentries : Entries s) (v : Nat) :
    Owners (s.dropEntry v) ∧ LetGo { s with data := (s.dropEntry v).data } (s.dropEntry v) ∧
      ∀ k w, (s.dropEntry v).data k = some w → s.data k = some w ∧ w ≠ v := by
  unfold SharedResourceMap.dropEntry
  split
  next hv =>
    obtain ⟨hlt, -⟩ := hentries _ v hv
    have hletGo := letGo_release chain (s.erase (s.valueObj v).key) v
    refine ⟨(h.erase hlt hv).release 2, ?_, fun k w hw => ?_⟩
    · rw [hletGo.data]
      exact hletGo
    · rw [hletGo.data] at hw
      by_cases hk : k = (s.valueObj v).key
      · simp [SharedResourceMap.erase, hk] at hw
      · simp only [SharedResourceMap.erase, Function.update_of_ne hk] at hw
        exact ⟨hw, fun hwv => hk (hwv ▸ (hentries k w hw).2.symm)⟩
  next hv =>
    refine ⟨h, .refl s, fun k w hw => ⟨hw, fun hwv => hv ?_⟩⟩
    rw [hwv] at hw
    rwa [(hentries k v hw).2]

/-- The entries of these `ValueObj_`s are gone, and nothing else has changed. -/
theorem Owners.foldl_dropEntry (list : List Nat) {s : SharedResourceMap κ} (h : Owners s)
    (hentries : Entries s) :
    Owners (list.foldl SharedResourceMap.dropEntry s) ∧
      LetGo { s with data := (list.foldl SharedResourceMap.dropEntry s).data }
        (list.foldl SharedResourceMap.dropEntry s) ∧
      ∀ k w, (list.foldl SharedResourceMap.dropEntry s).data k = some w →
        s.data k = some w ∧ w ∉ list := by
  induction list generalizing s with
  | nil => exact ⟨h, .refl s, fun k w hw => ⟨hw, List.not_mem_nil⟩⟩
  | cons v list ih =>
    obtain ⟨h', hletGo, hdata⟩ := h.dropEntry hentries v
    have hentries' : Entries (s.dropEntry v) := fun k w hw => by
      rw [hletGo.made, hletGo.valueObj]
      exact hentries k w (hdata k w hw).1
    obtain ⟨h'', hletGo', hdata'⟩ := ih h' hentries'
    rw [List.foldl_cons]
    refine ⟨h'', ?_, fun k w hw => ?_⟩
    · exact (hletGo.setData _).trans hletGo'
    · obtain ⟨hw, hmem⟩ := hdata' k w hw
      obtain ⟨hw, hwv⟩ := hdata k w hw
      exact ⟨hw, by simp [hwv, hmem]⟩

theorem Owners.destroyInner (h : Owners s) (hentries : Entries s) :
    Owners s.destroyInner ∧
      LetGo { s with data := if s.inner then s.data else fun _ => none } s.destroyInner := by
  unfold SharedResourceMap.destroyInner
  split
  next => exact ⟨h, .refl s⟩
  next =>
    obtain ⟨h', hletGo, hdata⟩ := h.foldl_dropEntry (List.range s.made) hentries
    have hnone : ((List.range s.made).foldl SharedResourceMap.dropEntry s).data = fun _ => none := by
      funext k
      cases hk : ((List.range s.made).foldl SharedResourceMap.dropEntry s).data k with
      | none => rfl
      | some w =>
        obtain ⟨hw, hmem⟩ := hdata k w hk
        exact absurd (List.mem_range.mpr (hentries k w hw).1) hmem
    rw [hnone] at hletGo
    exact ⟨h', hletGo⟩

end

end SharedResourceMap
