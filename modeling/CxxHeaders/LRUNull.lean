/-
Null values in an `LRU`.

Which list an element is in is told by its strong pointer. That of an element
with a null value is not set, though it is in the cache list: `insert` and
`get` then take such an element out of the wrong list, and `grow` fails an
assertion when it comes to demote it. `consistent_iff` says in which runs this
does not happen.
-/
import CxxHeaders.LRUFacts

open Outcome

namespace LRU

variable {κ ν : Type} {l : LRU κ ν} {n : Nat}

/-- The elements that give way to one more in front of the list are strong. -/
def MakesRoom (l : LRU κ ν) (list : List Nat) : Prop := ∀ n ∈ list.drop (l.sizeLimit - 1), l.isStrong n

theorem drop_cons (h : 0 < l.sizeLimit) (n : Nat) (list : List Nat) :
    (n :: list).drop l.sizeLimit = list.drop (l.sizeLimit - 1) := by
  obtain ⟨k, hk⟩ := Nat.exists_eq_succ_of_ne_zero (Nat.ne_of_gt h)
  rw [hk]
  rfl

theorem take_failed {list : List Nat} (h : n ∉ list) : take list n = .failed := by
  simp [take, asserting, h]

theorem lock_of_null [DecidableEq ν] (h : Linked l) (hc : n ∈ l.cacheList) (hs : ¬l.isStrong n)
    (held : ν → Nat) : l.getValue held n = none := by
  have hstrong : (l.element n).strong = none := by simpa [isStrong] using hs
  unfold getValue lock
  rw [← h.cache n hc, hstrong]
  rfl

/-! ## Elements with a null value -/

variable {key : κ}

theorem exists_null (hnull : ¬l.HasValue key) :
    ∃ n, l.cacheMap key = some n ∧ n ∈ l.cacheList ∧ ¬l.isStrong n := by
  simpa [HasValue] using hnull

variable [DecidableEq κ] [DecidableEq ν] {held : ν → Nat}

theorem Linked.insert_null (h : Linked l) (hnull : ¬l.HasValue key) (value : Option ν) :
    insert held l key value = .failed := by
  obtain ⟨n, hk, hc, hs⟩ := exists_null hnull
  have hne : n ≠ l.made := Nat.ne_of_lt (h.fresh n (List.mem_append_left _ hc))
  unfold insert
  simp only [isStrong] at hs
  simp only [hk, isStrong, Function.update_of_ne hne, if_neg hs, take_failed (h.not_mem_weak hc)]
  rfl

theorem Linked.get_null (h : Linked l) (hnull : ¬l.HasValue key) : get held l key = .failed := by
  obtain ⟨n, hk, hc, hs⟩ := exists_null hnull
  unfold get
  simp only [hk, lock_of_null h hc hs, take_failed (h.not_mem_weak hc)]
  rfl

/-! ## `insert` and `get` -/

/-- What holds of a cache from the beginning on. -/
def Consistent (limit : Nat) (l : LRU κ ν) : Prop := Linked l ∧ l.sizeLimit = limit

/-- Whether `grow` fails depends on what is behind the first element only. -/
theorem grow_okIff (h : Linked l) (hpos : 0 < l.sizeLimit) {list : List Nat} (hl : l.cacheList = n :: list) :
    OkIff (MakesRoom l list) (Consistent l.sizeLimit) (grow held l) := by
  have hdrop : l.cacheList.drop l.sizeLimit = list.drop (l.sizeLimit - 1) := by rw [hl, drop_cons hpos]
  unfold MakesRoom
  rw [← hdrop]
  refine ⟨fun hstrong => ?_, fun hnull => grow_failed h.nodup_cache hnull held⟩
  obtain ⟨l', hgrow, hlinked, hsame, -⟩ := h.grow_eq hstrong held
  rw [hgrow]
  exact ⟨hlinked, hsame.sizeLimit⟩

theorem Linked.insert_okIff (h : Linked l) (hpos : 0 < l.sizeLimit) (value : Option ν) :
    OkIff (l.HasValue key ∧ MakesRoom l (l.without key).cacheList) (Consistent l.sizeLimit)
      (insert held l key value) := by
  refine OkIff.and (fun hvalue => ?_) fun hnull => h.insert_null hnull value
  rw [h.insert_eq hvalue]
  obtain ⟨helement, -, hsize⟩ := same_without l key
  have hroom : MakesRoom ((l.without key).push key value) (l.without key).cacheList ↔
      MakesRoom l (l.without key).cacheList := by
    unfold MakesRoom
    show (∀ n ∈ (l.without key).cacheList.drop ((l.without key).sizeLimit - 1), _) ↔ _
    rw [hsize]
    refine forall₂_congr fun n hn => ?_
    have hmem : n ∈ (l.without key).elements := List.mem_append_left _ (List.mem_of_mem_drop hn)
    unfold isStrong
    rw [(h.without key).push_of_mem key value hmem, helement]
  rw [← hroom, ← hsize]
  exact grow_okIff ((h.without key).push (cacheMap_without l key) value) (hsize.symm ▸ hpos) rfl

/-- A value that `get` takes up again finds room. -/
def TakesUp (l : LRU κ ν) (held : ν → Nat) (key : κ) : Prop :=
  ∀ n, l.cacheMap key = some n → n ∈ l.weakList → l.expired held n = false → MakesRoom l l.cacheList

/-- An element is taken up again. -/
theorem Linked.used_okIff {v : ν} (h : Linked l) (hpos : 0 < l.sizeLimit) (hw : n ∈ l.weakList)
    (hv : (l.element n).weak = some v) :
    OkIff (MakesRoom l l.cacheList) (Consistent l.sizeLimit) (grow held (l.used n v)) := by
  have hc := h.not_mem_cache hw
  have hroom : MakesRoom (l.used n v) l.cacheList ↔ MakesRoom l l.cacheList := by
    refine forall₂_congr fun m hm => ?_
    unfold isStrong
    rw [used_of_ne (ne_of_mem_of_not_mem (List.mem_of_mem_drop hm) hc)]
  have hcache : (l.used n v).cacheList = n :: l.cacheList := by
    simp [LRU.used, List.erase_of_not_mem hc]
  rw [← hroom]
  exact grow_okIff (h.used (List.mem_append_right _ hw) hv) hpos hcache

theorem Linked.get_okIff (h : Linked l) (hpos : 0 < l.sizeLimit) :
    OkIff (l.HasValue key ∧ l.TakesUp held key) (fun r => Consistent l.sizeLimit r.1) (get held l key) := by
  refine OkIff.and (fun hvalue => ?_) h.get_null
  have hwithout : Consistent l.sizeLimit (l.without key) := ⟨h.without key, (same_without l key).2.2⟩
  cases hk : l.cacheMap key with
  | none =>
    have hget : get held l key = .next (l.without key, none) :=
      h.get_of_expired fun n hn => by rw [hk] at hn; cases hn
    have htakes : l.TakesUp held key := fun n hn => by rw [hk] at hn; cases hn
    rw [hget]
    exact Ok.okIff hwithout htakes
  | some n =>
    have hn := (h.map key n).mp hk
    have htakes : l.TakesUp held key ↔
        (n ∈ l.weakList → l.expired held n = false → MakesRoom l l.cacheList) := by
      simp [TakesUp, hk]
    rw [htakes]
    rcases List.mem_append.mp hn.1 with hc | hw
    · obtain ⟨v, hv⟩ := Option.isSome_iff_exists.mp (hvalue n hk hc)
      have hweak : (l.element n).weak = some v := (h.cache n hc).symm.trans hv
      rw [h.get_of_strong hk hc hweak]
      exact Ok.okIff ⟨h.used hn.1 hweak, rfl⟩ fun hw => absurd hw (h.not_mem_weak hc)
    · obtain ⟨v, hv⟩ := Option.isSome_iff_exists.mp (h.weak n hw).2
      by_cases ha : l.alive held v
      · have hexpired : l.expired held n = false := expired_eq_false.mpr ⟨v, hv, ha⟩
        rw [h.get_of_alive hk hw hv ha, forall_prop_of_true hw, forall_prop_of_true hexpired]
        exact (h.used_okIff hpos hw hv).bind fun l' hl => hl
      · have hget : get held l key = .next (l.without key, none) := by
          refine h.get_of_expired fun m hm => ?_
          rw [hk] at hm
          cases hm
          exact ⟨hw, v, hv, by simpa using ha⟩
        have hexpired : l.expired held n ≠ false := fun he => by
          obtain ⟨w, hv', ha'⟩ := expired_eq_false.mp he
          rw [hv] at hv'
          cases hv'
          exact ha ha'
        rw [hget]
        exact Ok.okIff hwithout fun _ he => absurd he hexpired

/-! ## Runs -/

/-- The step comes across no null value: not as that of the key it is given,
and not as that of an element that has to give way. -/
def Harmless (c : Config κ ν) : Act κ ν → Prop
  | .insert key value => (∀ v ∈ value, 0 < c.held v) →
    c.lru.HasValue key ∧ MakesRoom c.lru (c.lru.without key).cacheList
  | .get key => c.lru.HasValue key ∧ c.lru.TakesUp c.held key
  | _ => True

/-- **One step.** -/
theorem harmless_okIff {limit : Nat} (hpos : 0 < limit) {c : Config κ ν} (h : Consistent limit c.lru)
    (a : Act κ ν) : OkIff (Harmless c a) (fun d => Consistent limit d.lru) (next c a) := by
  obtain ⟨hlinked, rfl⟩ := h
  cases a with
  | insert key value =>
    by_cases hheld : ∀ v ∈ value, 0 < c.held v
    · simp only [Harmless, next, requiring_true hheld, next_bind, forall_prop_of_true hheld]
      exact (hlinked.insert_okIff hpos value).bind fun l' hl => hl
    · simp only [Harmless, next, requiring, if_neg hheld, blocked_bind]
      exact Ok.okIff trivial fun hv => absurd hv hheld
  | get key => exact (hlinked.get_okIff hpos).bind fun r hr => hr
  | clear => exact Ok.okIff ⟨(tidy_empty rfl rfl rfl).toLinked, rfl⟩ trivial
  | _ =>
    refine Ok.okIff ?_ trivial
    simp only [next, ok_bind, ok_requiring]
    exact fun _ => ⟨hlinked, rfl⟩

/-- **No assertion of the cache fails, no element is taken out of the wrong
list, and the map and the lists agree, in every run exactly if none of its
steps comes across a null value.** -/
theorem consistent_iff {limit : Nat} (hlimit : 1 ≤ limit) (garbage : Nat → CacheElement κ ν)
    (as : List (Act κ ν)) :
    Runs.Along next (fun _ _ d => Arranged d.lru) (init limit garbage) as ↔
      Runs.Meets next Harmless (init limit garbage) as :=
  Runs.along_iff_meets_of_okIff (Q := fun d => Arranged d.lru) (fun _ a h => harmless_okIff hlimit h a)
    (fun _ h => h.1.toArranged) as ⟨(tidy_empty rfl rfl rfl).toLinked, rfl⟩

/-- A null value that is cleared away before anything else happens. -/
theorem consistent_null : Runs.Along next (fun _ _ d => Arranged d.lru) (init 1 fun _ => ⟨0, none, none⟩)
    [(.insert 0 none : Act Nat Nat), .clear] :=
  (consistent_iff (Nat.le_refl 1) (fun _ => ⟨0, none, none⟩) _).mpr
    ⟨fun _ => ⟨fun _ hn => (by cases hn), fun _ hn => by cases hn⟩, fun _ _ => ⟨trivial, fun _ _ => trivial⟩⟩

/-- A null value that is looked up is taken out of the weak list. -/
theorem get_null_fails : Runs.run next (init 2 fun _ => ⟨0, none, none⟩)
      [(.insert 0 none : Act Nat Nat), .get 0] = .failed ∧
    ¬∀ as : List (Act Nat Nat),
      Runs.Along next (fun _ _ d => Arranged d.lru) (init 2 fun _ => ⟨0, none, none⟩) as := by
  have hrun : Runs.run next (init 2 fun _ => ⟨0, none, none⟩)
      [(.insert 0 none : Act Nat Nat), .get 0] = .failed := rfl
  exact ⟨hrun, fun h => (h _).run_ne_failed hrun⟩

end LRU
