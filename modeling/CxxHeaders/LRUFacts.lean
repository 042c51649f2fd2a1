/-
What the operations of an `LRU` do to its lists and its map.

`Linked` is what holds of these among themselves, also in the middle of an
operation, and `Tidy` says moreover that no value in the cache list is null. An
operation takes a key out (`without`), puts a new element in (`push`) or
moves an element to the front (`used`), each of which leaves a linked cache,
and `grow` makes a linked cache fit its limit, or fails (`grow_eq`,
`grow_failed`).
-/
import CxxHeaders.LRU

open Outcome

namespace LRU

variable {κ ν : Type}

/-- The elements of both lists. -/
def elements (l : LRU κ ν) : List Nat := l.cacheList ++ l.weakList

/-- The map and the lists have the same elements, each of them in one place. -/
structure Arranged (l : LRU κ ν) : Prop where
  nodup : l.elements.Nodup
  fresh : ∀ n ∈ l.elements, n < l.made
  map : ∀ k n, l.cacheMap k = some n ↔ n ∈ l.elements ∧ (l.element n).key = k

/-- An element in the cache list that is not strong has a null value; in the
weak list no element is strong, and none has a null value. -/
structure Linked (l : LRU κ ν) : Prop extends Arranged l where
  cache : ∀ n ∈ l.cacheList, (l.element n).strong = (l.element n).weak
  weak : ∀ n ∈ l.weakList, (l.element n).strong = none ∧ (l.element n).weak.isSome

structure Tidy (l : LRU κ ν) : Prop extends Linked l where
  isStrong : ∀ n ∈ l.cacheList, l.isStrong n

/-- What never changes of an element, and of the cache. -/
structure Same (l l' : LRU κ ν) : Prop where
  sizeLimit : l'.sizeLimit = l.sizeLimit
  made : l'.made = l.made
  key : ∀ n, (l'.element n).key = (l.element n).key
  weak : ∀ n, (l'.element n).weak = (l.element n).weak

theorem Same.trans {l l' l'' : LRU κ ν} (h : Same l l') (h' : Same l' l'') : Same l l'' :=
  ⟨h'.sizeLimit.trans h.sizeLimit, h'.made.trans h.made, fun n => (h'.key n).trans (h.key n),
    fun n => (h'.weak n).trans (h.weak n)⟩

variable {l l' : LRU κ ν} {held : ν → Nat} {n : Nat}

theorem Tidy.strong (h : Tidy l) (hn : n ∈ l.cacheList) :
    ∃ v, (l.element n).strong = some v ∧ (l.element n).weak = some v := by
  obtain ⟨v, hv⟩ := Option.isSome_iff_exists.mp (h.isStrong n hn)
  exact ⟨v, hv, (h.cache n hn).symm.trans hv⟩

theorem tidy_empty (hcache : l.cacheList = []) (hweak : l.weakList = [])
    (hmap : l.cacheMap = fun _ => none) : Tidy l := by
  have helements : l.elements = [] := by
    unfold elements
    rw [hcache, hweak, List.append_nil]
  refine ⟨⟨⟨?_, fun n hn => ?_, fun k n => ?_⟩, fun n hn => ?_, fun n hn => ?_⟩, fun n hn => ?_⟩
  · rw [helements]
    exact List.nodup_nil
  · simp [helements] at hn
  · simp [helements, hmap]
  · simp [hcache] at hn
  · simp [hweak] at hn
  · simp [hcache] at hn

theorem Arranged.eq_of_key (h : Arranged l) {m : Nat} (hn : n ∈ l.elements) (hm : m ∈ l.elements)
    (hk : (l.element n).key = (l.element m).key) : n = m :=
  Option.some.inj (((h.map _ n).mpr ⟨hn, hk⟩).symm.trans ((h.map _ m).mpr ⟨hm, rfl⟩))

theorem Arranged.not_mem_weak (h : Arranged l) (hc : n ∈ l.cacheList) : n ∉ l.weakList :=
  fun hw => (List.nodup_append.mp h.nodup).2.2 n hc n hw rfl

theorem Arranged.not_mem_cache (h : Arranged l) (hw : n ∈ l.weakList) : n ∉ l.cacheList :=
  fun hc => h.not_mem_weak hc hw

theorem Arranged.nodup_cache (h : Arranged l) : l.cacheList.Nodup := (List.nodup_append.mp h.nodup).1

/-- The elements are arranged in another way. -/
theorem Arranged.rearrange (h : Arranged l) (hsame : Same l l') (hp : l'.elements.Perm l.elements)
    (hmap : l'.cacheMap = l.cacheMap) : Arranged l' := by
  refine ⟨hp.nodup_iff.mpr h.nodup, fun n hn => ?_, fun k n => ?_⟩
  · rw [hsame.made]
    exact h.fresh n (hp.mem_iff.mp hn)
  · rw [hmap, hp.mem_iff, hsame.key]
    exact h.map k n

theorem same_setStrong (l : LRU κ ν) (n : Nat) (strong : Option ν) : Same l (l.setStrong n strong) := by
  refine ⟨rfl, rfl, fun m => ?_, fun m => ?_⟩ <;> by_cases hm : m = n <;> simp [setStrong, hm]

theorem demote_eq (h : l.isStrong n) : l.demote n = .next (l.setStrong n none) := by
  unfold demote
  rw [asserting_true h]
  rfl

theorem setStrong_of_ne {m : Nat} (h : m ≠ n) (strong : Option ν) :
    (l.setStrong n strong).element m = l.element m :=
  Function.update_of_ne h _ _

/-! ## Rearrangements -/

theorem perm_erase_weak {l : LRU κ ν} (hn : n ∈ l.weakList) :
    (n :: (l.cacheList ++ l.weakList.erase n)).Perm l.elements :=
  List.perm_middle.symm.trans ((List.perm_cons_erase hn).symm.append_left _)

theorem Arranged.erase_mem (h : Arranged l) {m : Nat} :
    (m ∈ l.cacheList.erase n ↔ m ≠ n ∧ m ∈ l.cacheList) ∧
      (m ∈ l.weakList.erase n ↔ m ≠ n ∧ m ∈ l.weakList) := by
  obtain ⟨hc, hw, -⟩ := List.nodup_append.mp h.nodup
  exact ⟨hc.mem_erase_iff, hw.mem_erase_iff⟩

/-- An element is in one of the lists only. -/
theorem Arranged.perm_erase (h : Arranged l) (hn : n ∈ l.elements) :
    (n :: (l.cacheList.erase n ++ l.weakList.erase n)).Perm l.elements := by
  rcases List.mem_append.mp hn with hc | hw
  · rw [List.erase_of_not_mem (h.not_mem_weak hc)]
    exact (List.perm_cons_erase hc).symm.append_right _
  · rw [List.erase_of_not_mem (h.not_mem_cache hw)]
    exact perm_erase_weak hw

theorem Linked.not_strong (h : Linked l) (hw : n ∈ l.weakList) : ¬l.isStrong n := by
  simp [LRU.isStrong, (h.weak n hw).1]

theorem Tidy.isStrong_iff (h : Tidy l) (hn : n ∈ l.elements) : l.isStrong n ↔ n ∈ l.cacheList := by
  refine ⟨fun hs => ?_, h.isStrong n⟩
  exact (List.mem_append.mp hn).resolve_right fun hw => h.not_strong hw hs

/-- The cache with an element moved to the front. -/
def used (l : LRU κ ν) (n : Nat) (v : ν) : LRU κ ν :=
  { l.setStrong n (some v) with cacheList := n :: l.cacheList.erase n, weakList := l.weakList.erase n }

theorem same_used (l : LRU κ ν) (n : Nat) (v : ν) : Same l (l.used n v) := by
  obtain ⟨hsize, hmade, hkey, hweak⟩ := same_setStrong l n (some v)
  exact ⟨hsize, hmade, hkey, hweak⟩

theorem used_self {v : ν} (l : LRU κ ν) (n : Nat) : ((l.used n v).element n).strong = some v := by
  simp [used, setStrong]

theorem used_of_ne {v : ν} {m : Nat} (hm : m ≠ n) : (l.used n v).element m = l.element m :=
  setStrong_of_ne hm _

theorem Linked.used {v : ν} (h : Linked l) (hn : n ∈ l.elements) (hv : (l.element n).weak = some v) :
    Linked (l.used n v) := by
  refine ⟨h.rearrange (same_used l n v) (h.perm_erase hn) rfl, fun m hm => ?_, fun m hm => ?_⟩
  · rcases List.mem_cons.mp hm with rfl | hm
    · rw [used_self, (same_used l m v).weak, hv]
    · obtain ⟨hmn, hm⟩ := h.erase_mem.1.mp hm
      rw [used_of_ne hmn]
      exact h.cache m hm
  · obtain ⟨hmn, hm⟩ := h.erase_mem.2.mp hm
    rw [used_of_ne hmn]
    exact h.weak m hm

theorem Tidy.used {v : ν} (h : Tidy l) (hn : n ∈ l.elements) (hv : (l.element n).weak = some v) :
    Tidy (l.used n v) := by
  refine ⟨h.toLinked.used hn hv, fun m hm => ?_⟩
  unfold LRU.isStrong
  rcases List.mem_cons.mp hm with rfl | hm
  · rw [used_self]
    rfl
  · obtain ⟨hmn, hm⟩ := h.erase_mem.1.mp hm
    rw [used_of_ne hmn]
    exact h.isStrong m hm

section

variable [DecidableEq κ] {key : κ}

/-- The cache with no element for the key. -/
def without (l : LRU κ ν) (key : κ) : LRU κ ν :=
  match l.cacheMap key with
  | none => l
  | some n =>
    { l with
      cacheMap := Function.update l.cacheMap key none
      cacheList := l.cacheList.erase n, weakList := l.weakList.erase n }

/-- The cache with a new first element. -/
def push (l : LRU κ ν) (key : κ) (value : Option ν) : LRU κ ν :=
  { l with
    element := Function.update l.element l.made ⟨key, value, value⟩, made := l.made + 1
    cacheList := l.made :: l.cacheList, cacheMap := Function.update l.cacheMap key (some l.made) }

/-- An element leaves, and its key the map. -/
theorem Linked.remove (h : Linked l) {cacheList weakList : List Nat}
    (hp : (n :: (cacheList ++ weakList)).Perm l.elements) (hc : cacheList ⊆ l.cacheList)
    (hw : weakList ⊆ l.weakList) :
    Linked { l with
      cacheMap := Function.update l.cacheMap (l.element n).key none
      cacheList := cacheList, weakList := weakList } := by
  obtain ⟨hn, hnodup⟩ := List.nodup_cons.mp (hp.nodup_iff.mpr h.nodup)
  have hmem : ∀ m, m ∈ l.elements ↔ m = n ∨ m ∈ cacheList ++ weakList := fun m => by
    rw [← hp.mem_iff, List.mem_cons]
  refine ⟨⟨hnodup, fun m hm => h.fresh m ((hmem m).mpr (.inr hm)), fun k m => ?_⟩,
    fun m hm => h.cache m (hc hm), fun m hm => h.weak m (hw hm)⟩
  simp only [elements]
  by_cases hk : k = (l.element n).key
  · rw [hk, Function.update_self]
    refine ⟨nofun, fun ⟨hm, hkey⟩ => ?_⟩
    cases h.eq_of_key ((hmem m).mpr (.inr hm)) ((hmem n).mpr (.inl rfl)) hkey
    exact absurd hm hn
  · rw [Function.update_of_ne hk, h.map, hmem]
    refine and_congr_left fun hkey => or_iff_right ?_
    rintro rfl
    exact hk hkey.symm

theorem Linked.without (h : Linked l) (key : κ) : Linked (l.without key) := by
  unfold LRU.without
  cases hn : l.cacheMap key with
  | none => exact h
  | some n =>
    obtain ⟨hmem, rfl⟩ := (h.map _ _).mp hn
    exact h.remove (h.perm_erase hmem) List.erase_subset List.erase_subset

theorem same_without (l : LRU κ ν) (key : κ) :
    (l.without key).element = l.element ∧ (l.without key).made = l.made ∧
      (l.without key).sizeLimit = l.sizeLimit := by
  unfold LRU.without
  split <;> exact ⟨rfl, rfl, rfl⟩

theorem Arranged.mem_without (h : Arranged l) {m : Nat} :
    (m ∈ (l.without key).cacheList ↔ m ∈ l.cacheList ∧ (l.element m).key ≠ key) ∧
      (m ∈ (l.without key).weakList ↔ m ∈ l.weakList ∧ (l.element m).key ≠ key) := by
  unfold LRU.without
  cases hn : l.cacheMap key with
  | none =>
    have hkey : m ∈ l.elements → (l.element m).key ≠ key := fun hm hk => by
      rw [(h.map key m).mpr ⟨hm, hk⟩] at hn
      cases hn
    exact ⟨(and_iff_left_of_imp fun hm => hkey (List.mem_append_left _ hm)).symm,
      (and_iff_left_of_imp fun hm => hkey (List.mem_append_right _ hm)).symm⟩
  | some n =>
    obtain ⟨hmem, rfl⟩ := (h.map _ _).mp hn
    have hkey : m ∈ l.elements → (m ≠ n ↔ (l.element m).key ≠ (l.element n).key) := fun hm =>
      not_congr ⟨fun he => he ▸ rfl, h.eq_of_key hm hmem⟩
    simp only [h.erase_mem]
    exact ⟨by rw [and_comm]; exact and_congr_right fun hm => hkey (List.mem_append_left _ hm),
      by rw [and_comm]; exact and_congr_right fun hm => hkey (List.mem_append_right _ hm)⟩

theorem Arranged.mem_elements_without (h : Arranged l) {m : Nat} :
    m ∈ (l.without key).elements ↔ m ∈ l.elements ∧ (l.element m).key ≠ key := by
  unfold elements
  rw [List.mem_append, List.mem_append, h.mem_without.1, h.mem_without.2, or_and_right]

theorem cacheMap_without (l : LRU κ ν) (key : κ) : (l.without key).cacheMap key = none := by
  unfold LRU.without
  cases hn : l.cacheMap key with
  | none => exact hn
  | some n => simp

theorem Tidy.without (h : Tidy l) (key : κ) : Tidy (l.without key) := by
  refine ⟨h.toLinked.without key, fun m hm => ?_⟩
  unfold LRU.isStrong
  rw [(same_without l key).1]
  exact h.isStrong m (h.mem_without.1.mp hm).1

theorem push_self (l : LRU κ ν) (key : κ) (value : Option ν) :
    (l.push key value).element l.made = ⟨key, value, value⟩ :=
  Function.update_self ..

theorem Arranged.push_of_mem (h : Arranged l) (key : κ) (value : Option ν) {m : Nat}
    (hm : m ∈ l.elements) : (l.push key value).element m = l.element m :=
  Function.update_of_ne (Nat.ne_of_lt (h.fresh m hm)) _ _

theorem Linked.push (h : Linked l) (hk : l.cacheMap key = none) (value : Option ν) :
    Linked (l.push key value) := by
  have hfresh : ∀ m ∈ l.elements, m ≠ l.made := fun m hm => Nat.ne_of_lt (h.fresh m hm)
  refine ⟨⟨?_, ?_, fun k m => ?_⟩, fun m hm => ?_, fun m hm => ?_⟩
  · exact List.nodup_cons.mpr ⟨fun hm => hfresh _ hm rfl, h.nodup⟩
  · intro m hm
    rcases List.mem_cons.mp hm with rfl | hm
    · exact Nat.lt_succ_self _
    · exact Nat.lt_succ_of_lt (h.fresh m hm)
  · have hmem : m ∈ (l.push key value).elements ↔ m = l.made ∨ m ∈ l.elements := List.mem_cons
    rw [hmem]
    by_cases hm : m = l.made
    · subst hm
      rw [push_self]
      by_cases hkk : k = key
      · simp [LRU.push, hkk]
      · have hk : l.cacheMap k ≠ some l.made := fun hk => hfresh _ ((h.map _ _).mp hk).1 rfl
        simp [LRU.push, hkk, hk, Ne.symm hkk]
    · rw [or_iff_right hm]
      by_cases hkk : k = key
      · have hno : ¬(m ∈ l.elements ∧ (l.element m).key = k) := fun hm => by
          rw [← h.map, hkk, hk] at hm
          cases hm
        simp only [LRU.push, hkk, Function.update_self, Function.update_of_ne hm]
        exact ⟨fun he => absurd (Option.some.inj he).symm hm, fun he => absurd (hkk ▸ he) hno⟩
      · simp only [LRU.push, Function.update_of_ne hkk, Function.update_of_ne hm]
        exact h.map k m
  · rcases List.mem_cons.mp hm with rfl | hm
    · rw [push_self]
    · rw [h.push_of_mem key value (List.mem_append_left _ hm)]
      exact h.cache m hm
  · rw [h.push_of_mem key value (List.mem_append_right _ hm)]
    exact h.weak m hm

theorem Tidy.push (h : Tidy l) (hk : l.cacheMap key = none) (v : ν) : Tidy (l.push key (some v)) := by
  refine ⟨h.toLinked.push hk (some v), fun m hm => ?_⟩
  show ((l.push key (some v)).element m).strong.isSome
  rcases List.mem_cons.mp hm with rfl | hm
  · rw [push_self]
    rfl
  · rw [h.push_of_mem key (some v) (List.mem_append_left _ hm)]
    exact h.isStrong m hm

end

/-! ## Growing -/

/-- What is over the limit of the cache list, demoted. -/
def trimmed (l : LRU κ ν) : LRU κ ν :=
  { l with
    element := fun n =>
      if n ∈ l.cacheList.drop l.sizeLimit then { l.element n with strong := none } else l.element n
    cacheList := l.cacheList.take l.sizeLimit
    weakList := l.cacheList.drop l.sizeLimit ++ l.weakList }

theorem same_trimmed (l : LRU κ ν) : Same l l.trimmed := by
  refine ⟨rfl, rfl, fun n => ?_, fun n => ?_⟩ <;> simp only [trimmed] <;> split <;> rfl

theorem Arranged.trimmed_of_mem_take (h : Arranged l) (hn : n ∈ l.cacheList.take l.sizeLimit) :
    l.trimmed.element n = l.element n := by
  have hnodup := h.nodup_cache
  rw [← List.take_append_drop l.sizeLimit l.cacheList] at hnodup
  exact if_neg fun hd => (List.nodup_append.mp hnodup).2.2 n hn n hd rfl

theorem Linked.trimmed (h : Linked l) (hstrong : ∀ n ∈ l.cacheList.drop l.sizeLimit, l.isStrong n) :
    Linked l.trimmed := by
  refine ⟨h.rearrange (same_trimmed l) (.of_eq ?_) rfl, fun m hm => ?_, fun m hm => ?_⟩
  · simp only [elements, LRU.trimmed]
    rw [← List.append_assoc, List.take_append_drop]
  · rw [h.trimmed_of_mem_take hm]
    exact h.cache m (List.mem_of_mem_take hm)
  · rw [(same_trimmed l).weak]
    rcases List.mem_append.mp hm with hd | hw
    · have hs := hstrong m hd
      unfold LRU.isStrong at hs
      rw [h.cache m (List.mem_of_mem_drop hd)] at hs
      exact ⟨by simp [LRU.trimmed, hd], hs⟩
    · have hd : m ∉ l.cacheList.drop l.sizeLimit := fun hd => h.not_mem_cache hw (List.mem_of_mem_drop hd)
      simp only [LRU.trimmed, if_neg hd]
      exact h.weak m hw

/-- The cache with its last element, `n`, demoted. -/
def demoteLast (l : LRU κ ν) (list : List Nat) (n : Nat) : LRU κ ν :=
  { l.setStrong n none with cacheList := list, weakList := n :: l.weakList }

theorem trimmed_demoteLast {list : List Nat} (hl : l.cacheList = list ++ [n]) (hn : n ∉ list)
    (hlimit : l.sizeLimit ≤ list.length) : (l.demoteLast list n).trimmed = l.trimmed := by
  have hdrop : l.cacheList.drop l.sizeLimit = list.drop l.sizeLimit ++ [n] := by
    rw [hl, List.drop_append_of_le_length hlimit]
  have htake : l.cacheList.take l.sizeLimit = list.take l.sizeLimit := by
    rw [hl, List.take_append_of_le_length hlimit]
  unfold trimmed
  rw [hdrop, htake]
  simp only [demoteLast, setStrong, LRU.mk.injEq, true_and]
  refine ⟨funext fun m => ?_, by simp⟩
  by_cases hm : m = n
  · subst hm
    have hd : m ∉ list.drop l.sizeLimit := fun hd => hn (List.mem_of_mem_drop hd)
    simp [hd]
  · simp [hm]

/-- The first loop of `grow`: the elements over the limit must be strong. -/
theorem demoteOver_eq : ∀ (fuel : Nat) {l : LRU κ ν}, l.cacheList.Nodup →
    l.cacheList.length ≤ l.sizeLimit + fuel →
    demoteOver fuel l =
      if ∀ n ∈ l.cacheList.drop l.sizeLimit, l.isStrong n then .next l.trimmed else .failed
  | fuel, l, hnodup, hfuel => by
    by_cases hle : l.cacheList.length ≤ l.sizeLimit
    · have hdrop : l.cacheList.drop l.sizeLimit = [] := List.drop_eq_nil_of_le hle
      unfold demoteOver trimmed
      simp [hle, hdrop, List.take_of_length_le hle]
    rcases List.eq_nil_or_concat l.cacheList with hnil | ⟨list, n, hl⟩
    · simp [hnil] at hle
    have hlen : l.cacheList.length = list.length + 1 := by simp [hl]
    match fuel with
    | 0 => omega
    | fuel + 1 =>
      have hl : l.cacheList = list ++ [n] := by simpa using hl
      have hlimit : l.sizeLimit ≤ list.length := by omega
      have hdrop : l.cacheList.drop l.sizeLimit = list.drop l.sizeLimit ++ [n] := by
        rw [hl, List.drop_append_of_le_length hlimit]
      have hlast : l.cacheList.getLast? = some n := by simp [hl]
      have hdropLast : l.cacheList.dropLast = list := by simp [hl]
      obtain ⟨hnodup, -, hdisjoint⟩ := List.nodup_append.mp (hl ▸ hnodup)
      have hne : ∀ m ∈ list, m ≠ n := fun m hm => hdisjoint m hm n List.mem_cons_self
      unfold demoteOver
      rw [if_neg hle, hlast]
      by_cases hs : l.isStrong n
      · have hlast' : { l.setStrong n none with
            cacheList := l.cacheList.dropLast, weakList := n :: l.weakList } = l.demoteLast list n := by
          rw [hdropLast]
          rfl
        have hstrong : (∀ m ∈ list.drop l.sizeLimit, (l.demoteLast list n).isStrong m) ↔
            ∀ m ∈ l.cacheList.drop l.sizeLimit, l.isStrong m := by
          simp only [hdrop, List.mem_append, List.mem_singleton, or_imp, forall_and, forall_eq, hs, and_true]
          refine forall₂_congr fun m hm => ?_
          have hother : (l.demoteLast list n).element m = l.element m :=
            setStrong_of_ne (hne m (List.mem_of_mem_drop hm)) none
          unfold isStrong
          rw [hother]
        have hfuel' : (l.demoteLast list n).cacheList.length ≤ (l.demoteLast list n).sizeLimit + fuel := by
          show list.length ≤ l.sizeLimit + fuel
          omega
        simp only [demote_eq hs, next_bind]
        refine (congrArg (demoteOver fuel) hlast').trans ?_
        rw [demoteOver_eq fuel hnodup hfuel', trimmed_demoteLast hl (fun hn => hne n hn rfl) hlimit]
        exact if_congr hstrong rfl rfl
      · have hnot : ¬∀ m ∈ l.cacheList.drop l.sizeLimit, l.isStrong m := fun h => hs (h n (by simp [hdrop]))
        rw [if_neg hnot]
        simp only [demote, asserting, if_neg hs]
        rfl

variable [DecidableEq ν]

theorem Linked.alive_iff (h : Linked l) {v : ν} :
    l.alive held v = true ↔ 0 < held v ∨ ∃ n ∈ l.cacheList, (l.element n).strong = some v := by
  unfold alive
  simp only [Bool.or_eq_true, decide_eq_true_eq, List.any_eq_true, List.mem_append]
  refine or_congr_right ⟨fun ⟨n, hn, hv⟩ => ?_, fun ⟨n, hn, hv⟩ => ⟨n, .inl hn, hv⟩⟩
  rcases hn with hn | hn
  · exact ⟨n, hn, hv⟩
  · rw [(h.weak n hn).1] at hv
    cases hv

theorem expired_eq_false :
    l.expired held n = false ↔ ∃ v, (l.element n).weak = some v ∧ l.alive held v = true := by
  unfold expired lock
  cases (l.element n).weak <;> simp

/-- Whether a value is alive does not depend on the weak list. -/
theorem Linked.expired_congr (h : Linked l) (h' : Linked l') (hc : l'.cacheList = l.cacheList)
    (he : l'.element = l.element) : l'.expired held n = l.expired held n := by
  have halive : l'.alive held = l.alive held := by
    funext v
    rw [Bool.eq_iff_iff, h.alive_iff, h'.alive_iff, hc, he]
  unfold expired lock
  rw [he, halive]

/-- The second loop removes those of the elements it goes through whose values
are not alive, and nothing else. -/
theorem collect_eq [DecidableEq κ] (held : ν → Nat) :
    ∀ (rest : List Nat) {l : LRU κ ν}, Linked l → rest.Nodup → rest ⊆ l.weakList →
    Linked (collect held rest l) ∧ (collect held rest l).element = l.element ∧
      (collect held rest l).sizeLimit = l.sizeLimit ∧ (collect held rest l).made = l.made ∧
      (collect held rest l).cacheList = l.cacheList ∧
      ∀ n, n ∈ (collect held rest l).weakList ↔ n ∈ l.weakList ∧ (n ∈ rest → l.expired held n = false)
  | [], l, h, _, _ => by simp [collect, h]
  | n :: rest, l, h, hnodup, hsub => by
    obtain ⟨hn, hnodup⟩ := List.nodup_cons.mp hnodup
    obtain ⟨hnw, hsub⟩ := List.cons_subset.mp hsub
    unfold collect
    by_cases hexp : l.expired held n
    · have hnodup' := (List.nodup_append.mp h.nodup).2.1
      have hlinked := h.remove (perm_erase_weak hnw) (fun _ h => h) List.erase_subset
      obtain ⟨hlinked', he, hs, hm, hc, hweak⟩ := collect_eq held rest hlinked hnodup fun m hm =>
        (hnodup'.mem_erase_iff).mpr ⟨ne_of_mem_of_not_mem hm hn, hsub hm⟩
      rw [if_pos hexp]
      refine ⟨hlinked', he, hs, hm, hc, fun m => ?_⟩
      rw [hweak m, h.expired_congr hlinked rfl rfl, hnodup'.mem_erase_iff]
      grind
    · obtain ⟨hlinked', he, hs, hm, hc, hweak⟩ := collect_eq held rest h hnodup hsub
      rw [if_neg hexp]
      refine ⟨hlinked', he, hs, hm, hc, fun m => ?_⟩
      rw [hweak m, List.mem_cons]
      grind

/-- **`grow`** keeps the limit's worth of elements strongly, and the others as
long as their values are alive. -/
theorem Linked.grow_eq [DecidableEq κ] (h : Linked l)
    (hstrong : ∀ n ∈ l.cacheList.drop l.sizeLimit, l.isStrong n) (held : ν → Nat) :
    ∃ l', grow held l = .next l' ∧ Linked l' ∧ Same l l' ∧ l'.cacheList = l.cacheList.take l.sizeLimit ∧
      (∀ n ∈ l'.cacheList, l'.element n = l.element n) ∧
      ∀ n, n ∈ l'.weakList ↔
        (n ∈ l.cacheList.drop l.sizeLimit ∨ n ∈ l.weakList) ∧ l'.expired held n = false := by
  have hdemote := demoteOver_eq l.cacheList.length h.nodup_cache (by omega)
  rw [if_pos hstrong] at hdemote
  have hlinked := h.trimmed hstrong
  obtain ⟨hlinked', he, hs, hm, hc, hcollect⟩ := collect_eq held l.trimmed.weakList hlinked
    (List.nodup_append.mp hlinked.nodup).2.1 fun _ h => h
  refine ⟨_, by unfold grow; rw [hdemote]; rfl, hlinked',
    (same_trimmed l).trans ⟨hs, hm, fun n => by rw [he], fun n => by rw [he]⟩, hc, fun n hn => ?_,
    fun n => ?_⟩
  · rw [hc] at hn
    rw [he]
    exact h.trimmed_of_mem_take hn
  · rw [hcollect, hlinked.expired_congr hlinked' hc he]
    refine (and_congr_right fun hn => forall_prop_of_true hn).trans (and_congr_left fun _ => ?_)
    exact List.mem_append

/-- An element over the limit with a null value makes `grow` fail. -/
theorem grow_failed [DecidableEq κ] (hnodup : l.cacheList.Nodup)
    (hnull : ¬∀ n ∈ l.cacheList.drop l.sizeLimit, l.isStrong n) (held : ν → Nat) :
    grow held l = .failed := by
  have hdemote := demoteOver_eq l.cacheList.length hnodup (by omega)
  rw [if_neg hnull] at hdemote
  unfold grow
  rw [hdemote]
  rfl

theorem grow_eq [DecidableEq κ] (h : Tidy l) (held : ν → Nat) :
    ∃ l', grow held l = .next l' ∧ Tidy l' ∧ Same l l' ∧ l'.cacheList = l.cacheList.take l.sizeLimit ∧
      ∀ n, n ∈ l'.weakList ↔
        (n ∈ l.cacheList.drop l.sizeLimit ∨ n ∈ l.weakList) ∧ l'.expired held n = false := by
  obtain ⟨l', hgrow, hlinked, hsame, hcache, helement, hweak⟩ :=
    h.toLinked.grow_eq (fun n hn => h.isStrong n (List.mem_of_mem_drop hn)) held
  refine ⟨l', hgrow, ⟨hlinked, fun n hn => ?_⟩, hsame, hcache, hweak⟩
  unfold isStrong
  rw [helement n hn]
  exact h.isStrong n (List.mem_of_mem_take (hcache ▸ hn))

/-! ## `insert` and `get` -/

variable {v : ν}

theorem getValue_of_strong (h : (l.element n).strong = some v) : l.getValue held n = some v := by
  unfold getValue
  rw [h]

theorem Linked.getValue_of_weak (h : Linked l) (hw : n ∈ l.weakList) (hv : (l.element n).weak = some v) :
    l.getValue held n = if l.alive held v then some v else none := by
  unfold getValue lock
  rw [(h.weak n hw).1, hv]
  cases ha : l.alive held v <;> simp [ha]

variable [DecidableEq κ] {key : κ}

theorem take_eq {list : List Nat} (h : n ∈ list) : take list n = .next (list.erase n) := by
  unfold take
  rw [asserting_true h]
  rfl

/-- The key's element is not one that has a null value. -/
def HasValue (l : LRU κ ν) (key : κ) : Prop := ∀ n, l.cacheMap key = some n → n ∈ l.cacheList → l.isStrong n

theorem Linked.insert_eq (h : Linked l) (hvalue : l.HasValue key) (value : Option ν) :
    insert held l key value = grow held ((l.without key).push key value) := by
  unfold insert LRU.without
  cases hn : l.cacheMap key with
  | none => rfl
  | some n =>
    obtain ⟨hmem, -⟩ := (h.map _ _).mp hn
    have hne : n ≠ l.made := Nat.ne_of_lt (h.fresh n hmem)
    rcases List.mem_append.mp hmem with hc | hw
    · have htake : take (l.made :: l.cacheList) n = .next (l.made :: l.cacheList.erase n) := by
        rw [take_eq (List.mem_cons_of_mem _ hc), List.erase_cons_tail (by simpa using hne.symm)]
      have hstrong := hvalue n hn hc
      simp only [isStrong] at hstrong
      simp only [isStrong, LRU.push, Function.update_of_ne hne, Function.update_idem]
      rw [if_pos hstrong, htake, List.erase_of_not_mem (h.not_mem_weak hc)]
      rfl
    · have hstrong := h.not_strong hw
      simp only [isStrong] at hstrong
      simp only [isStrong, LRU.push, Function.update_of_ne hne, Function.update_idem]
      rw [if_neg hstrong, take_eq hw, List.erase_of_not_mem (h.not_mem_cache hw)]
      rfl

theorem Tidy.insert_eq (h : Tidy l) (key : κ) (v : ν) :
    insert held l key (some v) = grow held ((l.without key).push key (some v)) :=
  h.toLinked.insert_eq (fun n _ hc => h.isStrong n hc) (some v)

/-- What `get` does to an element of the cache list. -/
theorem Linked.get_of_strong (h : Linked l) (hk : l.cacheMap key = some n) (hc : n ∈ l.cacheList)
    (hv : (l.element n).weak = some v) : get held l key = .next (l.used n v, some v) := by
  have hs : (l.element n).strong = some v := (h.cache n hc).trans hv
  have hset : l.setStrong n (some v) = l := by
    unfold setStrong
    rw [← hs, Function.update_eq_self]
  unfold get LRU.used
  simp only [hk, getValue_of_strong hs, isStrong, hs, Option.isSome_some, if_true, take_eq hc,
    next_bind, pure_eq, hset,
    List.erase_of_not_mem (h.not_mem_weak hc)]

/-- What `get` does to an element of the weak list whose value is alive. -/
theorem Linked.get_of_alive (h : Linked l) (hk : l.cacheMap key = some n) (hw : n ∈ l.weakList)
    (hv : (l.element n).weak = some v) (ha : l.alive held v) :
    get held l key =
      grow (Function.update held v (held v + 1)) (l.used n v) >>= fun l => .next (l, some v) := by
  have hs : ¬l.isStrong n := h.not_strong hw
  have hgv : l.getValue held n = some v := by rw [h.getValue_of_weak hw hv, if_pos ha]
  unfold get promote LRU.used
  simp only [hk, hgv, if_neg hs, asserting_true hs, next_bind, pure_eq]
  have htake : take (l.setStrong n (some v)).weakList n = .next (l.weakList.erase n) := take_eq hw
  rw [htake, List.erase_of_not_mem (h.not_mem_cache hw)]
  rfl

/-- Where `get` finds no value, no element of the key stays. -/
theorem Linked.get_of_expired (h : Linked l)
    (hk : ∀ n, l.cacheMap key = some n →
      n ∈ l.weakList ∧ ∃ v, (l.element n).weak = some v ∧ l.alive held v = false) :
    get held l key = .next (l.without key, none) := by
  unfold get LRU.without
  cases hn : l.cacheMap key with
  | none => rfl
  | some n =>
    obtain ⟨hw, v, hv, ha⟩ := hk n hn
    have hc := h.not_mem_cache hw
    have hgv : l.getValue held n = none := by rw [h.getValue_of_weak hw hv, if_neg (by simp [ha])]
    simp only [hgv, take_eq hw, next_bind, pure_eq, List.erase_of_not_mem hc]

end LRU
