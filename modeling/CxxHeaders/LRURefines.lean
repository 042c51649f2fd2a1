/-
The cache does what its specification says (`refines`). `Rep` says which keys,
values and pointers the lists and the elements stand for.
-/
import CxxHeaders.LRUFacts
import CxxHeaders.LRUSpec

open Outcome

namespace LRU

variable {κ ν : Type} {l l' : LRU κ ν} {s : Spec κ ν} {n : Nat} {key : κ} {v : ν}

/-- The keys of the elements. -/
def keys (l : LRU κ ν) (list : List Nat) : List κ := list.map fun n => (l.element n).key

/-- The cache stands for the state of the specification, which tells it what
is held outside. Elements that lapsed may be there or not. -/
structure Rep (l : LRU κ ν) (s : Spec κ ν) : Prop where
  tidy : Tidy l
  limit : l.sizeLimit = s.limit
  strong : l.keys l.cacheList = s.strong
  last : ∀ n ∈ l.elements, s.last (l.element n).key = (l.element n).weak
  weak : ∀ k v, k ∉ s.strong → s.last k = some v → s.lapsed k = false → ∃ n ∈ l.weakList, (l.element n).key = k

/-- An empty cache. -/
theorem Rep.nil (hcache : l.cacheList = []) (hweak : l.weakList = []) (hmap : l.cacheMap = fun _ => none)
    (hlimit : l.sizeLimit = s.limit) (hmru : s.mru = []) (hlast : s.last = fun _ => none) : Rep l s := by
  have helements : l.elements = [] := by
    unfold elements
    rw [hcache, hweak, List.append_nil]
  refine ⟨tidy_empty hcache hweak hmap, hlimit, ?_, fun n hn => ?_, fun k v _ hv => ?_⟩
  · simp [LRU.keys, Spec.strong, hcache, hmru]
  · simp [helements] at hn
  · simp [hlast] at hv

theorem Same.keys (h : Same l l') (list : List Nat) : l'.keys list = l.keys list := by
  unfold LRU.keys
  simp only [h.key]

theorem Rep.mem_strong (h : Rep l s) (hn : n ∈ l.elements) :
    (l.element n).key ∈ s.strong ↔ n ∈ l.cacheList := by
  rw [← h.strong]
  refine ⟨fun hk => ?_, fun hn => List.mem_map_of_mem hn⟩
  obtain ⟨m, hm, hk⟩ := List.mem_map.mp hk
  exact h.tidy.eq_of_key (List.mem_append_left _ hm) hn hk ▸ hm

theorem Rep.exists_strong (h : Rep l s) (hk : key ∈ s.strong) :
    ∃ n ∈ l.cacheList, (l.element n).key = key := by
  rw [← h.strong] at hk
  exact List.mem_map.mp hk

theorem Arranged.keys_erase [DecidableEq κ] (h : Arranged l) {list : List Nat} (hsub : list ⊆ l.elements)
    (hn : n ∈ l.elements) :
    l.keys (list.erase n) = (l.keys list).erase (l.element n).key := by
  induction list with
  | nil => rfl
  | cons m list ih =>
    obtain ⟨hm, hsub⟩ := List.cons_subset.mp hsub
    unfold LRU.keys at ih ⊢
    rw [List.map_cons, List.erase_cons, List.erase_cons, ← ih hsub]
    by_cases hmn : m = n
    · simp [hmn]
    · have hk : (l.element m).key ≠ (l.element n).key := mt (h.eq_of_key hm hn) hmn
      simp [hmn, hk]

theorem Arranged.keys_without [DecidableEq κ] (h : Arranged l) (key : κ) :
    l.keys (l.without key).cacheList = (l.keys l.cacheList).erase key := by
  unfold LRU.without
  cases hn : l.cacheMap key with
  | none =>
    refine (List.erase_of_not_mem fun hk => ?_).symm
    obtain ⟨n, hm, hk⟩ := List.mem_map.mp hk
    rw [(h.map key n).mpr ⟨List.mem_append_left _ hm, hk⟩] at hn
    cases hn
  | some n =>
    obtain ⟨hmem, rfl⟩ := (h.map _ _).mp hn
    exact h.keys_erase (List.subset_append_left ..) hmem

/-- A key that has not lapsed has an element. -/
theorem Rep.exists_mem (h : Rep l s) (hv : s.last key = some v)
    (hk : key ∈ s.strong ∨ s.lapsed key = false) :
    ∃ n ∈ l.elements, (l.element n).key = key := by
  by_cases hstrong : key ∈ s.strong
  · obtain ⟨n, hn, hkey⟩ := h.exists_strong hstrong
    exact ⟨n, List.mem_append_left _ hn, hkey⟩
  · obtain ⟨n, hn, hkey⟩ := h.weak key v hstrong hv (hk.resolve_left hstrong)
    exact ⟨n, List.mem_append_right _ hn, hkey⟩

section

variable [DecidableEq κ]

theorem Rep.keys_used (h : Rep l s) (hn : n ∈ l.elements) (hk : (l.element n).key = key) (v : ν) :
    (l.used n v).keys (l.used n v).cacheList = key :: s.strong.erase key := by
  rw [(same_used l n v).keys, ← h.strong, ← hk, ← h.tidy.keys_erase (List.subset_append_left ..) hn]
  rfl

theorem Rep.last_used (h : Rep l s) (hn : n ∈ l.elements) (hk : (l.element n).key = key)
    (hv : (l.element n).weak = some v) {m : Nat} (hm : m ∈ (l.used n v).elements) :
    (s.use key v).last ((l.used n v).element m).key = ((l.used n v).element m).weak := by
  have hm : m ∈ l.elements := (h.tidy.perm_erase hn).mem_iff.mp hm
  rw [(same_used l n v).key, (same_used l n v).weak]
  by_cases hmk : (l.element m).key = key
  · cases h.tidy.eq_of_key hm hn (hmk.trans hk.symm)
    rw [hv, hmk]
    exact Function.update_self ..
  · rw [← h.last m hm]
    exact Function.update_of_ne hmk _ _

theorem Rep.exists_used (h : Rep l s) (hn : n ∈ l.elements) (hk : (l.element n).key = key) {k : κ}
    {w : ν}
    (hw : (s.use key v).last k = some w) (hl : (s.use key v).lapsed k = false) :
    ∃ m ∈ (l.used n v).elements, ((l.used n v).element m).key = k := by
  have hmem : ∃ m ∈ l.elements, (l.element m).key = k := by
    by_cases hkk : k = key
    · exact ⟨n, hn, hk.trans hkk.symm⟩
    · simp only [Spec.use, Function.update_of_ne hkk] at hw hl
      exact h.exists_mem hw (.inr hl)
  obtain ⟨m, hm, hmk⟩ := hmem
  exact ⟨m, (h.tidy.perm_erase hn).mem_iff.mpr hm, ((same_used l n v).key m).trans hmk⟩

end

variable [DecidableEq ν]

theorem Tidy.alive_eq (h : Tidy l) (hstrong : l.keys l.cacheList = s.strong)
    (hlast : ∀ n ∈ l.elements, s.last (l.element n).key = (l.element n).weak) :
    l.alive s.held = s.alive := by
  funext v
  rw [Bool.eq_iff_iff, h.alive_iff, Spec.alive_iff, ← hstrong]
  refine or_congr_right ⟨fun ⟨n, hn, hv⟩ => ?_, fun ⟨k, hk, hv⟩ => ?_⟩
  · obtain ⟨w, hs, hw⟩ := h.strong hn
    refine ⟨_, List.mem_map_of_mem hn, ?_⟩
    rw [hlast n (List.mem_append_left _ hn), hw, ← hs, hv]
  · obtain ⟨n, hn, rfl⟩ := List.mem_map.mp hk
    obtain ⟨w, hs, hw⟩ := h.strong hn
    refine ⟨n, hn, ?_⟩
    rw [hs, ← hw, ← hlast n (List.mem_append_left _ hn), hv]

theorem Rep.alive (h : Rep l s) : l.alive s.held = s.alive := h.tidy.alive_eq h.strong h.last

/-- The state of the cache and what it is to stand for. -/
structure Refines (c : Config κ ν) (s : Spec κ ν) : Prop where
  rep : Rep c.lru s
  sane : Spec.Sane s
  settled : Spec.Settled s
  held : c.held = s.held
  created : c.created = s.created
  returned : c.returned = s.returned

theorem Spec.Sane.nil (hpos : 0 < s.limit) (hmru : s.mru = []) (hlast : s.last = fun _ => none)
    (hheld : ∀ v, 0 < s.held v → s.created v) : Spec.Sane s := by
  refine ⟨hpos, hmru ▸ List.nodup_nil, fun k hk => ?_, fun k v hv => ?_, hheld, fun k v hv => ?_⟩
  · simp [Spec.strong, hmru] at hk
  · simp [hlast] at hv
  · simp [hlast] at hv

theorem Spec.Settled.nil (hlast : s.last = fun _ => none) : Spec.Settled s := fun k v _ hv => by
  simp [hlast] at hv

theorem refines_init {limit : Nat} (h : 1 ≤ limit) (garbage : Nat → CacheElement κ ν) :
    Refines (init limit garbage) (Spec.init limit) := by
  have hheld : ∀ v, 0 < (Spec.init limit : Spec κ ν).held v → (Spec.init limit : Spec κ ν).created v :=
    fun v hv => absurd hv (Nat.lt_irrefl 0)
  exact ⟨.nil rfl rfl rfl rfl rfl rfl, .nil h rfl rfl hheld, .nil rfl, rfl, rfl, rfl⟩

variable [DecidableEq κ]

/-- Values lapse without the cache taking notice. -/
theorem Rep.settle (h : Rep l s) : Rep l s.settle := by
  refine ⟨h.tidy, h.limit, h.strong, h.last, fun k v hk hv hl => h.weak k v hk hv ?_⟩
  exact (Bool.or_eq_false_iff.mp hl).1

/-- **`grow`** makes a tidy cache stand for the specification, when it has all
keys that it must have, and the keys used last are in front. -/
theorem Tidy.grow_rep (h : Tidy l) (hlimit : l.sizeLimit = s.limit)
    (hstrong : (l.keys l.cacheList).take s.limit = s.strong)
    (hlast : ∀ n ∈ l.elements, s.last (l.element n).key = (l.element n).weak)
    (hkeys : ∀ k v, s.last k = some v → s.lapsed k = false → ∃ n ∈ l.elements, (l.element n).key = k) :
    ∃ l', grow s.held l = .next l' ∧ Rep l' s.settle := by
  obtain ⟨l', hgrow, htidy, hsame, hcache, hweak⟩ := grow_eq h s.held
  have hstrong' : l'.keys l'.cacheList = s.strong := by
    rw [hsame.keys, hcache, ← hstrong, hlimit]
    exact List.map_take ..
  have hmem : ∀ n ∈ l'.elements, n ∈ l.elements := fun n hn => by
    rcases List.mem_append.mp hn with hn | hn
    · exact List.mem_append_left _ (List.mem_of_mem_take (hcache ▸ hn))
    · exact List.mem_append.mpr (((hweak n).mp hn).1.imp_left List.mem_of_mem_drop)
  have hlast' : ∀ n ∈ l'.elements, s.last (l'.element n).key = (l'.element n).weak := fun n hn => by
    rw [hsame.key, hsame.weak, hlast n (hmem n hn)]
  refine ⟨l', hgrow, htidy, hsame.sizeLimit.trans hlimit, hstrong', hlast', fun k v hk hv hl => ?_⟩
  obtain ⟨n, hn, hkey⟩ := hkeys k v hv (Bool.or_eq_false_iff.mp hl).1
  refine ⟨n, (hweak n).mpr ⟨?_, ?_⟩, (hsame.key n).trans hkey⟩
  · -- An element in the part that `grow` keeps would be strong.
    refine (List.mem_append.mp hn).imp_left fun hn => ?_
    rw [← List.take_append_drop l.sizeLimit l.cacheList, ← hcache] at hn
    refine (List.mem_append.mp hn).resolve_left fun hn => hk ?_
    have hn' := List.mem_map_of_mem (f := fun n => (l'.element n).key) hn
    rw [hsame.key, hkey] at hn'
    exact hstrong' ▸ hn'
  · refine expired_eq_false.mpr ⟨v, ?_, ?_⟩
    · rw [hsame.weak, ← hlast n hn, hkey, ← hv]
      rfl
    · rw [htidy.alive_eq hstrong' hlast']
      exact Spec.settled_settle s k v hk hv hl

/-! ## Operations -/

/-- `insert` uses the key. -/
theorem Rep.insert (h : Rep l s) (hs : Spec.Sane s) (key : κ) (v : ν) :
    ∃ l', insert s.held l key (some v) = .next l' ∧ Rep l' (s.use key v).settle := by
  rw [h.tidy.insert_eq]
  obtain ⟨helement, hmade, hsize⟩ := same_without l key
  have hself : ((l.without key).push key (some v)).element l.made = ⟨key, some v, some v⟩ := by
    rw [← hmade]
    exact Function.update_self ..
  have hother : ∀ m ∈ l.elements, ((l.without key).push key (some v)).element m = l.element m := fun m hm => by
    have hne : m ≠ (l.without key).made := hmade ▸ Nat.ne_of_lt (h.tidy.fresh m hm)
    rw [← helement]
    exact Function.update_of_ne hne _ _
  refine Tidy.grow_rep (s := s.use key v) ((h.tidy.without key).push (cacheMap_without l key) v)
    (hsize.trans h.limit) ?_ (fun m hm => ?_) fun k w hw hl => ?_
  · rw [Spec.strong_use hs.pos, ← h.strong, ← h.tidy.keys_without]
    refine congrArg (List.take s.limit) (congrArg₂ List.cons ?_ (List.map_congr_left fun m hm => ?_))
    · simp only [hmade, hself]
    · rw [hother m (List.mem_append_left _ (h.tidy.mem_without.1.mp hm).1)]
  · rcases List.mem_cons.mp hm with rfl | hm
    · simp only [hmade, hself]
      exact Function.update_self ..
    · obtain ⟨hm, hk⟩ := h.tidy.mem_elements_without.mp hm
      rw [hother m hm, ← h.last m hm]
      exact Function.update_of_ne hk _ _
  · by_cases hk : k = key
    · exact ⟨l.made, hmade ▸ List.mem_cons_self, by rw [hself, hk]⟩
    · simp only [Spec.use, Function.update_of_ne hk] at hw hl
      obtain ⟨n, hn, rfl⟩ := h.exists_mem hw (.inr hl)
      refine ⟨n, List.mem_cons_of_mem _ (h.tidy.mem_elements_without.mpr ⟨hn, hk⟩), ?_⟩
      rw [hother n hn]

/-! ### `get` -/

theorem Rep.lookup_none (h : Rep l s) (hs : Spec.Sane s) (hk : s.lookup key = none) :
    ∃ l', get s.held l key = .next (l', none) ∧ Rep l' { s with returned := none } := by
  have hno : ∀ v, s.last key = some v → key ∉ s.strong ∧ s.lapsed key = true := fun v hv => by
    unfold Spec.lookup at hk
    rw [hv] at hk
    simpa using hk
  obtain ⟨helement, hmade, hsize⟩ := same_without l key
  have hstrong : key ∉ s.strong := fun hk => by
    obtain ⟨n, hn, rfl⟩ := h.exists_strong hk
    obtain ⟨v, -, hv⟩ := h.tidy.strong hn
    exact (hno v ((h.last n (List.mem_append_left _ hn)).trans hv)).1 hk
  refine ⟨l.without key, h.tidy.get_of_expired fun n hn => ?_, h.tidy.without key,
    hsize.trans h.limit, ?_,
    fun m hm => ?_, fun k v hk hv hl => ?_⟩
  · obtain ⟨hm, rfl⟩ := (h.tidy.map _ _).mp hn
    have hw := (List.mem_append.mp hm).resolve_left (mt (h.mem_strong hm).mpr hstrong)
    obtain ⟨v, hv⟩ := Option.isSome_iff_exists.mp (h.tidy.weak n hw).2
    have hlast := (h.last n hm).trans hv
    exact ⟨hw, v, hv, by rw [h.alive]; exact hs.lapsed _ v hlast (hno v hlast).2⟩
  · have hkeys := h.tidy.keys_without key
    rw [h.strong, List.erase_of_not_mem hstrong] at hkeys
    unfold keys at hkeys ⊢
    rw [helement]
    exact hkeys
  · rw [helement]
    exact h.last m (h.tidy.mem_elements_without.mp hm).1
  · obtain ⟨n, hn, rfl⟩ := h.weak k v hk hv hl
    refine ⟨n, h.tidy.mem_without.2.mpr ⟨hn, fun hkey => ?_⟩, by rw [helement]⟩
    have hl : s.lapsed (l.element n).key = false := hl
    rw [hkey, (hno v (hkey ▸ hv)).2] at hl
    cases hl

/-- `get` uses the key if it returns its value. -/
theorem Rep.lookup_some (h : Rep l s) (hs : Spec.Sane s) (hsettled : Spec.Settled s)
    (hv : s.lookup key = some v) :
    ∃ l', get s.held l key = .next (l', some v) ∧
      Rep l' (Spec.settle { s.use key v with
        held := Function.update s.held v (s.held v + 1), returned := some v }) := by
  have halive := hsettled.alive_of_lookup hv
  unfold Spec.lookup at hv
  split at hv
  next hk =>
    obtain ⟨n, hn, hkey⟩ := h.exists_mem hv hk
    have hv : (l.element n).weak = some v := by rw [← h.last n hn, hkey, hv]
    have hmap := (h.tidy.map key n).mpr ⟨hn, hkey⟩
    have htidy := h.tidy.used hn hv
    rcases List.mem_append.mp hn with hc | hw
    · refine ⟨_, h.tidy.get_of_strong hmap hc hv, Rep.settle ?_⟩
      have hkeys : (l.used n v).keys (l.used n v).cacheList = (s.use key v).strong := by
        have hmem : key ∈ s.strong := hkey ▸ (h.mem_strong hn).mpr hc
        have hlen : (key :: s.strong.erase key).length ≤ s.limit := by
          rw [List.length_cons, List.length_erase_of_mem hmem]
          have := List.length_take_le s.limit s.mru
          have := List.length_pos_of_mem hmem
          unfold Spec.strong at this ⊢
          omega
        rw [h.keys_used hn hkey, Spec.strong_use hs.pos, List.take_of_length_le hlen]
      refine ⟨htidy, h.limit, hkeys, fun m hm => h.last_used hn hkey hv hm, fun k w hk hw hl => ?_⟩
      obtain ⟨m, hm, rfl⟩ := h.exists_used hn hkey hw hl
      refine ⟨m, (List.mem_append.mp hm).resolve_left fun hm => hk ?_, rfl⟩
      exact hkeys ▸ List.mem_map_of_mem (f := fun m => ((l.used n v).element m).key) hm
    · rw [h.tidy.get_of_alive hmap hw hv (h.alive ▸ halive)]
      obtain ⟨l', hgrow, hrep⟩ := htidy.grow_rep
        (s := { s.use key v with held := Function.update s.held v (s.held v + 1), returned := some v })
        h.limit (by rw [h.keys_used hn hkey]; exact (Spec.strong_use (v := v) hs.pos).symm)
          (fun m hm => h.last_used hn hkey hv hm)
        fun k w hw hl => h.exists_used hn hkey hw hl
      exact ⟨l', by rw [hgrow]; rfl, hrep⟩
  next => cases hv

/-! ## Runs -/

variable {c : Config κ ν}

/-- Something happens outside of the cache. -/
theorem Refines.rehold (h : Refines c s) {held : ν → Nat} {created : ν → Bool}
    (hc : ∀ v, s.created v → created v)
    (hheld : ∀ v, 0 < held v → s.alive v ∨ s.created v = false ∧ created v) :
    Refines { c with held := held, created := created }
      (Spec.settle { s with held := held, created := created }) := by
  have hsane : Spec.Sane { s with held := held, created := created } := h.sane.rehold s.returned hc hheld
  obtain ⟨htidy, hlimit, hstrong, hlast, hweak⟩ := h.rep
  exact ⟨Rep.settle ⟨htidy, hlimit, hstrong, hlast, hweak⟩, hsane.settle, Spec.settled_settle _,
    rfl, rfl, h.returned⟩

/-- Somebody holds a value as often as they like. -/
theorem Refines.update (h : Refines c s) (hv : 0 < s.held v) (m : Nat) :
    Refines { c with held := Function.update s.held v m }
      (Spec.settle { s with held := Function.update s.held v m }) := by
  have hheld : ∀ w, 0 < Function.update s.held v m w → s.alive w := fun w hw =>
    Spec.alive_of_update (Spec.alive_of_held hv) hw
  obtain ⟨hrep, hsane, hsettled, -, -, hreturned⟩ :=
    h.rehold (fun _ hc => hc) fun w hw => .inl (hheld w hw)
  exact ⟨hrep, hsane, hsettled, rfl, h.created, hreturned⟩

theorem Refines.get (h : Refines c s) (key : κ) :
    ∃ d t, next c (.get key) = .next d ∧ Spec.next s (.get key) = .next t ∧
      d.returned = s.lookup key ∧ Refines d t := by
  obtain ⟨hrep, hsane, hsettled, hheld, hcreated, -⟩ := h
  cases hv : s.lookup key with
  | none =>
    obtain ⟨l', hget, hrep'⟩ := hrep.lookup_none hsane hv
    refine ⟨⟨l', s.held, c.created, none⟩, { s with returned := none }, ?_, ?_, rfl, hrep', ?_,
      hsettled, rfl,
      hcreated, rfl⟩
    · simp only [next, hheld, hget, next_bind, pure_eq, Option.elim_none]
    · simp only [Spec.next, hv, pure_eq]
    · exact hsane.rehold none (fun _ hc => hc) fun w hw => .inl (Spec.alive_of_held hw)
  | some v =>
    obtain ⟨l', hget, hrep'⟩ := hrep.lookup_some hsane hsettled hv
    have halive := hsettled.alive_of_lookup hv
    refine ⟨⟨l', Function.update s.held v (s.held v + 1), c.created, some v⟩, _, ?_, ?_, rfl, hrep', ?_,
      Spec.settled_settle _, rfl, hcreated, rfl⟩
    · simp only [next, hheld, hget, next_bind, pure_eq, Option.elim_some]
    · simp only [Spec.next, hv, pure_eq]
    · have hheld' : ∀ w, 0 < Function.update s.held v (s.held v + 1) w → s.alive w := fun w hw =>
        Spec.alive_of_update halive hw
      have hsane' := hsane.rehold (some v) (fun _ hc => hc) fun w hw => .inl (hheld' w hw)
      exact (hsane'.use (v := v) (Spec.alive_of_held (by simp))).settle

/-- **One step.** -/
theorem Refines.next (h : Refines c s) {a : Act κ ν} (ha : ∀ k, a ≠ .insert k none) :
    (LRU.next c a).Ok fun c' => ∃ s', Spec.next s a = .next s' ∧ Refines c' s' := by
  cases a with
  | create v =>
    simp only [LRU.next, Spec.next, ok_bind, ok_requiring, h.held, h.created]
    intro hnew
    rw [requiring_true hnew]
    refine ⟨_, rfl, h.rehold (fun w hw => ?_) fun w hw => ?_⟩
    · by_cases hwv : w = v <;> simp [hwv, hw]
    · by_cases hwv : w = v
      · exact .inr (by simpa [hwv] using hnew)
      · rw [Function.update_of_ne hwv] at hw
        exact .inl (Spec.alive_of_held hw)
  | copy v =>
    simp only [LRU.next, Spec.next, ok_bind, ok_requiring, h.held]
    intro hv
    rw [requiring_true hv]
    exact ⟨_, rfl, h.update hv _⟩
  | drop v =>
    simp only [LRU.next, Spec.next, ok_bind, ok_requiring, h.held]
    intro hv
    rw [requiring_true hv]
    exact ⟨_, rfl, h.update hv _⟩
  | insert key value =>
    cases value with
    | none => exact absurd rfl (ha key)
    | some v =>
      simp only [LRU.next, Spec.next, ok_bind, ok_requiring, h.held, Option.mem_some_iff, forall_eq']
      intro hv
      obtain ⟨l', hinsert, hrep⟩ := h.rep.insert h.sane key v
      rw [requiring_true hv, hinsert]
      exact ⟨_, rfl, hrep, (h.sane.use (Spec.alive_of_held hv)).settle, Spec.settled_settle _, rfl,
        h.created, h.returned⟩
  | get key =>
    obtain ⟨d, t, hd, ht, -, href⟩ := h.get key
    rw [hd]
    exact ⟨t, ht, href⟩
  | clear =>
    exact ⟨_, rfl, .nil rfl rfl rfl h.rep.limit rfl rfl, .nil h.sane.pos rfl rfl h.sane.held, .nil rfl,
      h.held, h.created, h.returned⟩

theorem Spec.limit_next {s t : Spec κ ν} {a : Act κ ν} (h : Spec.next s a = .next t) :
    t.limit = s.limit := by
  cases a with
  | insert key value =>
    cases value with
    | none => cases h
    | some v =>
      obtain ⟨_, -, hret⟩ := bind_eq_next.mp h
      cases hret
      rfl
  | get key =>
    simp only [Spec.next] at h
    split at h <;> cases h <;> rfl
  | clear => cases h; rfl
  | _ =>
    obtain ⟨_, -, hret⟩ := bind_eq_next.mp h
    cases hret
    rfl

/-- What the specification says of the cache. -/
structure Agrees (limit : Nat) (c : Config κ ν) (s : Spec κ ν) : Prop where
  distinct : s.mru.Nodup
  mostRecent : c.lru.keys c.lru.cacheList = s.mru.take limit
  length : c.lru.cacheList.length = min limit s.mru.length
  get : ∀ key, ∃ d, next c (.get key) = .next d ∧ d.returned = s.lookup key
  entries : ∀ key n, c.lru.cacheMap key = some n ↔ n ∈ c.lru.elements ∧ (c.lru.element n).key = key
  nodup : c.lru.elements.Nodup
  keys : (c.lru.keys c.lru.elements).Nodup
  strong : ∀ n ∈ c.lru.elements, c.lru.isStrong n ↔ n ∈ c.lru.cacheList

theorem Refines.agrees (h : Refines c s) : Agrees s.limit c s := by
  have htidy := h.rep.tidy
  refine ⟨h.sane.nodup, h.rep.strong, ?_, fun key => ?_, htidy.map, htidy.nodup, ?_,
    fun n hn => htidy.isStrong_iff hn⟩
  · have hlen := congrArg List.length h.rep.strong
    simpa [LRU.keys, Spec.strong] using hlen
  · obtain ⟨d, t, hd, -, hret, -⟩ := h.get key
    exact ⟨d, hd, hret⟩
  · exact List.Nodup.map_on (fun n hn m hm hk => htidy.eq_of_key hn hm hk) htidy.nodup

/-- **The cache refines its specification**: after every sequence of
operations, whoever else holds the values, it has the strong keys, answers
`get`, and keeps its map and its lists as the specification says. -/
theorem refines {limit : Nat} (hlimit : 1 ≤ limit) (garbage : Nat → CacheElement κ ν)
    (as : List (Act κ ν))
    (hvalues : ∀ key, .insert key none ∉ as) :
    (Runs.run next (init limit garbage) as).Ok fun c =>
      ∃ s, Runs.run Spec.next (Spec.init limit) as = .next s ∧ Agrees limit c s := by
  have hstep : ∀ c s (a : Act κ ν), (Refines c s ∧ s.limit = limit) → (∀ k, a ≠ .insert k none) →
      (next c a).Ok fun c' => ∃ s', Spec.next s a = .next s' ∧ Refines c' s' ∧ s'.limit = limit := by
    intro c s a ⟨h, hl⟩ ha
    refine (h.next ha).mono fun c' ⟨s', hs, h'⟩ => ⟨s', hs, h', ?_⟩
    rw [Spec.limit_next hs, hl]
  refine (Runs.simulates hstep ⟨refines_init hlimit garbage, rfl⟩ fun a ha k hk => ?_).mono ?_
  · exact hvalues k (hk ▸ ha)
  · intro c ⟨s, hs, h, hl⟩
    exact ⟨s, hs, hl ▸ h.agrees⟩

/-- A second key demotes the first one, whose value somebody else holds; then
the first key demotes the second one, whose value nobody holds. -/
def demoted : List (Act Nat Nat) :=
  [.create 7, .insert 1 (some 7), .create 8, .insert 2 (some 8), .drop 8, .get 1, .get 2]

theorem refines_demoted : ∃ c s, Runs.run next (init 1 fun _ => ⟨0, none, none⟩) demoted = .next c ∧
    Runs.run Spec.next (Spec.init 1) demoted = .next s ∧ Agrees 1 c s := by
  have hrun : (Runs.run next (init 1 fun _ => ⟨0, none, none⟩) demoted).isNext := by decide +kernel
  obtain ⟨c, hc⟩ := exists_of_isNext hrun
  obtain ⟨s, hs, hagrees⟩ :=
    (refines (Nat.le_refl 1) (fun _ => ⟨0, none, none⟩) demoted (by simp [demoted])).of_next hc
  exact ⟨c, s, hc, hs, hagrees⟩

end LRU
