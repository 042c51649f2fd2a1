/-
An `UnorderedMap` is a finite map.

Only `order` is up to the library, and whatever it does, every operation does
to the map what `FiniteMap.step` does to a finite partial function, and answers
the same. It is enough that equal keys have equal hashes (`Consistent`); other
keys may have the same hash too.
-/
import CxxHeaders.UnorderedMapOps
import CxxHeaders.UnorderedMapCopies
import CxxHeaders.Entries

open Outcome

namespace UnorderedMap

open Elements Entries

variable {κ υ η : Type}

/-! ## What the map is for -/

structure FiniteMap (κ υ : Type) where
  table : Table κ υ
  answers : List (Answer κ υ)

namespace FiniteMap

variable (pred : κ → κ → Bool)

def answer (t : FiniteMap κ υ) (r : Answer κ υ) : FiniteMap κ υ :=
  { t with answers := t.answers ++ [r] }

def emplace (t : FiniteMap κ υ) (key : κ) (value : υ) : FiniteMap κ υ :=
  match t.table key with
  | some e => t.answer (.inserted e false)
  | none => { t with table := put pred t.table key value }.answer (.inserted (key, value) true)

def insertOrAssign (t : FiniteMap κ υ) (key : κ) (value : υ) : FiniteMap κ υ :=
  match t.table key with
  | some e => { t with table := replace pred t.table key value }.answer (.inserted (e.1, value) false)
  | none => { t with table := put pred t.table key value }.answer (.inserted (key, value) true)

/-- `operator[]`, and the value it refers to. -/
def index [Inhabited υ] (t : FiniteMap κ υ) (key : κ) : FiniteMap κ υ × υ :=
  match t.table key with
  | some e => (t, e.2)
  | none => ({ t with table := put pred t.table key default }, default)

/-- An operation whose iterators point to entries with the keys `keys`. -/
def step [Inhabited υ] (t : FiniteMap κ υ) (keys : List κ) : Op κ υ η → FiniteMap κ υ
  | .emplace key value _ => t.emplace pred key value
  | .insert obj _ => t.emplace pred obj.1 obj.2
  | .insertOrAssign key value _ => t.insertOrAssign pred key value
  | .eraseKey key =>
    { t with table := erase pred t.table key }.answer (.erased (t.table key).isSome.toNat)
  | .eraseIterator _ | .eraseRange _ _ => { t with table := eraseAll pred t.table keys }.answer .done
  | .index key _ => (t.index pred key).1.answer (.reference (t.index pred key).2)
  | .indexAssign key value _ =>
    let t := (t.index pred key).1
    { t with table := replace pred t.table key value }.answer .done
  | .atKey key =>
    match t.table key with
    | some e => t.answer (.checked (.ok e.2))
    | none => t.answer (.checked (.error noSuchElement))
  | .atAssign key value =>
    match t.table key with
    | some _ => { t with table := replace pred t.table key value }.answer (.checked (.ok value))
    | none => t.answer (.checked (.error noSuchElement))
  | .find key => t.answer (.found (t.table key))
  | .count key => t.answer (.count (t.table key).isSome.toNat)
  | .contains key => t.answer (.contains (t.table key).isSome)
  | .equalRange key => t.answer (.range (t.table key).toList)
  | .clear => { t with table := fun _ => none }.answer .done

end FiniteMap

/-- `hasher` goes with the equality of keys. -/
structure Consistent (hasher : κ → η) (pred : κ → κ → Bool) : Prop where
  equal : Equivalence fun a b => pred a b = true
  hash : ∀ a b, pred a b → hasher a = hasher b

/-- The keys of the entries that the iterators of an operation point to. -/
def Use.pointed (u : Use κ υ η) : Op κ υ η → List κ
  | .eraseIterator i => (between u.elements u.map i (i + 1)).map Prod.fst
  | .eraseRange first last => (between u.elements u.map first last).map Prod.fst
  | _ => []

/-! ## The nodes -/

/-- Every node is there under the hash of its key, and no two keys are equal. -/
structure Sound (s : Elements κ υ) (m : UnorderedMap κ η) (t : Table κ υ) : Prop where
  within : Within m s
  hashed : ∀ e ∈ m.container, e.1 = m.hasher (s.elem e.2).1
  lists : Lists m.pred (m.container.map fun e => s.elem e.2) t

variable {s : Elements κ υ} {m : UnorderedMap κ η} {t : Table κ υ}

/-- The same, whatever the keys are. -/
structure Stored (s : Elements κ υ) (m : UnorderedMap κ η) : Prop where
  within : Within m s
  hashed : ∀ e ∈ m.container, e.1 = m.hasher (s.elem e.2).1

theorem Sound.stored (h : Sound s m t) : Stored s m := ⟨h.within, h.hashed⟩

theorem Stored.congr (h : Stored s m) {s' : Elements κ υ} (hmade : s.made ≤ s'.made)
    (hsame : ∀ e ∈ m.container, (s'.elem e.2).1 = (s.elem e.2).1) : Stored s' m :=
  ⟨h.within.mono hmade, fun e he => (h.hashed e he).trans (congrArg m.hasher (hsame e he).symm)⟩

theorem Stored.kept (h : Stored s m) {s' : Elements κ υ} (hs : Kept s s') : Stored s' m :=
  h.congr hs.made_le fun e he => congrArg Prod.fst (hs.elem (h.within e he))

theorem Stored.link (h : Stored s m) {key : κ} (value : υ) {order : List (η × Nat)}
    (horder : order.Perm ((m.hasher key, s.made) :: m.container)) :
    Stored (s.allocate key value) { m with container := order } := by
  have hkept := h.kept (kept_allocate s key value)
  refine ⟨fun e he => ?_, fun e he => ?_⟩
  · rcases List.mem_cons.mp (horder.mem_iff.mp he) with rfl | he
    · exact Nat.lt_succ_self _
    · exact hkept.within e he
  · rcases List.mem_cons.mp (horder.mem_iff.mp he) with rfl | he
    · rw [elem_allocate]
    · exact hkept.hashed e he

theorem Stored.fewer (h : Stored s m) {rest : List (η × Nat)} (hmem : ∀ e ∈ rest, e ∈ m.container) :
    Stored s { m with container := rest } :=
  ⟨fun e he => h.within e (hmem e he), fun e he => h.hashed e (hmem e he)⟩

theorem Sound.empty (s : Elements κ υ) (hasher : κ → η) (pred : κ → κ → Bool) :
    Sound s ⟨hasher, pred, []⟩ fun _ => none :=
  ⟨fun _ he => absurd he List.not_mem_nil, fun _ he => absurd he List.not_mem_nil, .nil⟩

/-- Two nodes have different elements. -/
theorem Sound.unique (h : Sound s m t) (hc : Consistent m.hasher m.pred) {d e : η × Nat}
    (hd : d ∈ m.container) (he : e ∈ m.container) (hp : m.pred (s.elem d.2).1 (s.elem e.2).1) :
    d = e := by
  have hpair := List.pairwise_map.mp h.lists.1
  have hsymm : Std.Symm fun d e : η × Nat => ¬m.pred (s.elem d.2).1 (s.elem e.2).1 :=
    ⟨fun _ _ hne => not_comm hc.equal hne⟩
  by_contra hne
  exact hpair.forall hd he hne hp

/-- The elements of the map are the same. -/
theorem Sound.congr (h : Sound s m t) {s' : Elements κ υ} (hmade : s.made ≤ s'.made)
    (hsame : ∀ e ∈ m.container, s'.elem e.2 = s.elem e.2) : Sound s' m t := by
  obtain ⟨hwithin, hhashed⟩ := h.stored.congr hmade fun e he => congrArg Prod.fst (hsame e he)
  refine ⟨hwithin, hhashed, ?_⟩
  rw [List.map_congr_left hsame]
  exact h.lists

theorem Sound.kept (h : Sound s m t) {s' : Elements κ υ} (hs : Kept s s') : Sound s' m t :=
  h.congr hs.made_le fun e he => hs.elem (h.within e he)

/-- A node for a new key. -/
theorem Sound.link (h : Sound s m t) (hc : Consistent m.hasher m.pred) {key : κ} (hkey : t key = none)
    (value : υ) {order : List (η × Nat)} (horder : order.Perm ((m.hasher key, s.made) :: m.container)) :
    Sound (s.allocate key value) { m with container := order } (put m.pred t key value) := by
  obtain ⟨hwithin, hhashed⟩ := h.stored.link value horder
  refine ⟨hwithin, hhashed, Lists.perm hc.equal ?_ (horder.symm.map _)⟩
  rw [List.map_cons, elem_allocate]
  exact (h.kept (kept_allocate s key value)).lists.put hc.equal hkey value

/-- A new value for an element. No other node has a key equal to that one. -/
theorem Sound.assign (h : Sound s m t) (hc : Consistent m.hasher m.pred) {key : κ} {n : η × Nat}
    (hn : n ∈ m.container) (hp : m.pred key (s.elem n.2).1) (value : υ) :
    Sound (s.assign n.2 value) m (replace m.pred t key value) := by
  have helem : ∀ e ∈ m.container, (s.assign n.2 value).elem e.2 =
      if m.pred key (s.elem e.2).1 then ((s.elem e.2).1, value) else s.elem e.2 := fun e he => by
    unfold Elements.assign
    by_cases hen : e.2 = n.2
    · simp only [hen, Function.update_self, hp, if_true]
    · have hne : ¬m.pred key (s.elem e.2).1 := fun hpe =>
        hen (congrArg Prod.snd (h.unique hc he hn (hc.equal.trans (hc.equal.symm hpe) hp)))
      simp only [Function.update_of_ne hen, if_neg hne]
  refine ⟨h.within, fun e he => ?_, ?_⟩
  · rw [helem e he, h.hashed e he]
    split <;> rfl
  · have hlists := h.lists.replace hc.equal key value
    rw [List.map_map] at hlists
    rw [List.map_congr_left helem]
    exact hlists

/-- The nodes `g` go. -/
theorem Sound.fewer (h : Sound s m t) (hc : Consistent m.hasher m.pred) {g rest : List (η × Nat)}
    (hperm : m.container.Perm (g ++ rest)) :
    Sound s { m with container := rest } (eraseAll m.pred t (g.map fun e => (s.elem e.2).1)) := by
  obtain ⟨hwithin, hhashed⟩ := h.stored.fewer fun e he => hperm.mem_iff.mpr (List.mem_append_right g he)
  refine ⟨hwithin, hhashed, ?_⟩
  have hlists := h.lists.perm hc.equal (hperm.map _)
  rw [List.map_append] at hlists
  have herased := hlists.eraseAll hc.equal
  rw [List.map_map] at herased
  exact herased

/-- The nodes of a range. -/
theorem Sound.eraseRange (h : Sound s m t) (hc : Consistent m.hasher m.pred) {first last : Nat}
    (hle : first ≤ last) :
    Sound s { m with container := m.container.take first ++ m.container.drop last }
      (eraseAll m.pred t ((between s m first last).map Prod.fst)) := by
  have hsplit : m.container.drop first =
      (m.container.drop first).take (last - first) ++ m.container.drop last := by
    have hlast : m.container.drop last = (m.container.drop first).drop (last - first) := by
      rw [List.drop_drop, Nat.add_sub_cancel' hle]
    rw [hlast, List.take_append_drop]
  have hperm : m.container.Perm ((m.container.drop first).take (last - first) ++
      (m.container.take first ++ m.container.drop last)) := by
    conv_lhs => rw [← List.take_append_drop first m.container, hsplit]
    rw [← List.append_assoc, ← List.append_assoc]
    exact List.perm_append_comm.append_right _
  have hfewer := h.fewer hc hperm
  rw [between, List.map_map]
  exact hfewer

/-! ## What refines what -/

/-- The same finite map, and the same answers. -/
structure Refines (hasher : κ → η) (pred : κ → κ → Bool) (u : Use κ υ η) (t : FiniteMap κ υ) : Prop where
  hasher : u.map.hasher = hasher
  pred : u.map.pred = pred
  sound : Sound u.elements u.map t.table
  answers : u.answers = t.answers

variable {hasher : κ → η} {pred : κ → κ → Bool} {u : Use κ υ η} {f : FiniteMap κ υ}

/-- An operation that changes nothing. -/
theorem Refines.answer (h : Refines hasher pred u f) {r r' : Answer κ υ} (hr : r = r') :
    (u.answer r).Ok fun u' => Refines hasher pred u' (f.answer r') :=
  ⟨h.hasher, h.pred, h.sound, congrArg₂ (· ++ [·]) h.answers hr⟩

theorem Refines.update (h : Refines hasher pred u f) {s : Elements κ υ} {m : UnorderedMap κ η}
    {t : Table κ υ} (hs : Sound s m t) (hm : m.hasher = u.map.hasher ∧ m.pred = u.map.pred) :
    Refines hasher pred { u with elements := s, map := m } { f with table := t } :=
  ⟨hm.1.trans h.hasher, hm.2.trans h.pred, hs, h.answers⟩

/-! ## Lookups -/

variable [DecidableEq η]

theorem findSwapped_eq (hc : Consistent m.hasher m.pred) (s : Elements κ υ) (key : κ) :
    findSwapped s m key = find s m key := by
  have hcomm : ∀ stored, m.pred key stored = m.pred stored key := fun stored =>
    Bool.eq_iff_iff.mpr ⟨hc.equal.symm, hc.equal.symm⟩
  unfold findSwapped find
  simp only [hcomm]

/-- What is found is the entry. -/
theorem Sound.find_some (h : Sound s m t) {key : κ} {a : Nat} (hf : find s m key = some a) :
    t key = some (s.elem a) := by
  obtain ⟨hmem, hp⟩ := findIn_spec hf
  exact (h.lists.2 key _).mpr ⟨List.mem_map.mpr ⟨_, hmem, rfl⟩, hp⟩

/-- An entry is found: its hash is that of the key. -/
theorem Sound.find_none (h : Sound s m t) (hc : Consistent m.hasher m.pred) {key : κ}
    (hf : find s m key = none) : t key = none := by
  cases ht : t key with
  | none => rfl
  | some e =>
    obtain ⟨hmem, hp⟩ := (h.lists.2 key e).mp ht
    obtain ⟨⟨hash, a⟩, hnode, rfl⟩ := List.mem_map.mp hmem
    have hhash : hash = m.hasher key := (h.hashed _ hnode).trans (hc.hash _ _ hp)
    subst hhash
    obtain ⟨b, hb⟩ := findIn_exists (p := fun stored => m.pred stored key) hnode hp
    rw [find, hb] at hf
    cases hf

theorem Sound.find_map (h : Sound s m t) (hc : Consistent m.hasher m.pred) (key : κ) :
    (find s m key).map s.elem = t key := by
  cases hf : find s m key with
  | none => exact (h.find_none hc hf).symm
  | some a => exact (h.find_some hf).symm

theorem Sound.isSome (h : Sound s m t) (hc : Consistent m.hasher m.pred) (key : κ) :
    (find s m key).isSome = (t key).isSome := by
  rw [← h.find_map hc, Option.isSome_map]

/-- One node, with the key. -/
theorem Sound.eraseKey (h : Sound s m t) (hc : Consistent m.hasher m.pred) (key : κ) :
    Sound s (eraseKey s m key) (erase m.pred t key) := by
  cases hf : findSwapped s m key with
  | none =>
    have hno : ∀ e ∈ m.container, ¬(decide (e.1 = m.hasher key ∧ m.pred key (s.elem e.2).1)) := by
      intro e he hq
      obtain ⟨hhash, hp⟩ := of_decide_eq_true hq
      obtain ⟨hash, a⟩ := e
      replace hhash : hash = m.hasher key := hhash
      subst hhash
      obtain ⟨b, hb⟩ := findIn_exists (p := fun stored => m.pred key stored) he hp
      rw [findSwapped, hb] at hf
      cases hf
    rw [findSwapped_eq hc] at hf
    refine ⟨?_, ?_, ?_⟩ <;> simp only [UnorderedMap.eraseKey, List.eraseP_of_forall_not hno]
    · exact h.within
    · exact h.hashed
    · exact h.lists.erase_absent hc.equal (h.find_none hc hf)
  | some a =>
    obtain ⟨hmem, hp⟩ := findIn_spec hf
    obtain ⟨e, before, after, -, hq, hcontainer, herase⟩ :=
      List.exists_of_eraseP (p := fun e => decide (e.1 = m.hasher key ∧ m.pred key (s.elem e.2).1)) hmem
        (by simp [hp])
    have hpe := (of_decide_eq_true hq).2
    have hperm : m.container.Perm (e :: (before ++ after)) := by
      rw [hcontainer]
      exact List.perm_middle
    have hfewer : Sound s { m with container := before ++ after } _ := h.fewer hc (g := [e]) hperm
    have hlists := (h.lists.perm hc.equal (hperm.map _)).erase hc.equal hpe
    refine ⟨?_, ?_, ?_⟩ <;> simp only [UnorderedMap.eraseKey, herase]
    · exact hfewer.within
    · exact hfewer.hashed
    · exact hlists

/-! ## The operations -/

theorem link_ok (h : Sound s m t) (hc : Consistent m.hasher m.pred) {key : κ} (hkey : t key = none)
    (value : υ) (order : List (η × Nat)) :
    (m.link key s.made order).Ok fun m' => (m'.hasher = m.hasher ∧ m'.pred = m.pred) ∧
      Sound (s.allocate key value) m' (put m.pred t key value) := by
  simp only [UnorderedMap.link, ok_bind, ok_requiring]
  exact fun horder => ⟨⟨rfl, rfl⟩, h.link hc hkey value horder⟩

/-- A key that was not there. -/
theorem Refines.link (h : Refines hasher pred u f) (hc : Consistent hasher pred) {key : κ}
    (hkey : f.table key = none) (value : υ) (order : List (η × Nat)) :
    (u.map.link key u.elements.made order).Ok fun m => Refines hasher pred
      { u with
        elements := u.elements.allocate key value
        map := m
        answers := u.answers ++ [.inserted ((u.elements.allocate key value).elem u.elements.made) true] }
      ({ f with table := put pred f.table key value }.answer (.inserted (key, value) true)) := by
  obtain ⟨rfl, rfl, hs, -⟩ := id h
  refine (link_ok hs hc hkey value order).mono fun m hm => ?_
  exact (h.update hm.2 hm.1).answer (by simp only [elem_allocate])

theorem emplace_refines (h : Refines hasher pred u f) (hc : Consistent hasher pred) (key : κ) (value : υ)
    (order : List (η × Nat)) :
    (emplace u.elements u.map key value order).Ok fun (s, m, a, new) =>
      Refines hasher pred
        { u with elements := s, map := m, answers := u.answers ++ [.inserted (s.elem a) new] }
        (f.emplace pred key value) := by
  obtain ⟨rfl, rfl, hs, -⟩ := id h
  simp only [emplace, hs.within.findSwapped_allocate, findSwapped_eq hc, FiniteMap.emplace]
  cases hf : find u.elements u.map key with
  | some b =>
    have hb := hs.within.mem hf
    have helem := (kept_allocate u.elements key value).elem hb
    simp only [hs.find_some hf]
    have hr := h.update (hs.kept (kept_allocate u.elements key value)) ⟨rfl, rfl⟩
    exact hr.answer (by rw [helem])
  | none =>
    have hkey := hs.find_none hc hf
    simp only [hkey, ok_bind]
    exact h.link hc hkey value order

theorem insertOrAssign_refines (h : Refines hasher pred u f) (hc : Consistent hasher pred) (key : κ)
    (value : υ) (order : List (η × Nat)) :
    (insertOrAssign u.elements u.map key value order).Ok fun (s, m, a, new) =>
      Refines hasher pred
        { u with elements := s, map := m, answers := u.answers ++ [.inserted (s.elem a) new] }
        (f.insertOrAssign pred key value) := by
  obtain ⟨rfl, rfl, hs, -⟩ := id h
  simp only [insertOrAssign, findSwapped_eq hc, FiniteMap.insertOrAssign]
  cases hf : find u.elements u.map key with
  | some b =>
    obtain ⟨hmem, hp⟩ := findIn_spec hf
    simp only [hs.find_some hf]
    have hr := h.update (hs.assign hc hmem (hc.equal.symm hp) value) ⟨rfl, rfl⟩
    exact hr.answer (by simp only [elem_assign])
  | none =>
    have hkey := hs.find_none hc hf
    simp only [hkey, ok_bind]
    exact h.link hc hkey value order

/-- `operator[]` gives an element that has the key. -/
theorem index_refines [Inhabited υ] (h : Refines hasher pred u f) (hc : Consistent hasher pred) (key : κ)
    (order : List (η × Nat)) :
    (index u.elements u.map key order).Ok fun (s, m, a) =>
      Refines hasher pred { u with elements := s, map := m } (f.index pred key).1 ∧
      (s.elem a).2 = (f.index pred key).2 ∧ ∃ n ∈ m.container, n.2 = a ∧ pred key (s.elem a).1 := by
  obtain ⟨rfl, rfl, hs, -⟩ := id h
  simp only [index, FiniteMap.index]
  cases hf : find u.elements u.map key with
  | some b =>
    obtain ⟨hmem, hp⟩ := findIn_spec hf
    simp only [hs.find_some hf]
    exact ⟨h, rfl, _, hmem, rfl, hc.equal.symm hp⟩
  | none =>
    have hkey := hs.find_none hc hf
    simp only [hkey, emplace, hs.within.findSwapped_allocate, findSwapped_eq hc, hf, bind_assoc, ok_bind]
    simp only [UnorderedMap.link, ok_bind, ok_requiring]
    intro horder
    refine ⟨h.update (hs.link hc hkey default horder) ⟨rfl, rfl⟩, by simp only [elem_allocate], ?_⟩
    refine ⟨_, horder.mem_iff.mpr List.mem_cons_self, rfl, ?_⟩
    rw [elem_allocate]
    exact hc.equal.refl key

/-! ## Whole steps -/

/-- The range of a key that is found is one node. -/
theorem equalRangeKey_some {key : κ} {a : Nat} (hf : find s m key = some a) :
    ∃ i, ∃ hi : i < m.container.length, m.container[i].2 = a ∧ equalRangeKey s m key = (i, i + 1) := by
  have hnode : ∃ e ∈ m.container, decide (e.2 = a) := by
    obtain ⟨e, he, hea⟩ := findIn_mem hf
    exact ⟨e, he, decide_eq_true hea⟩
  have hlt := List.findIdx_lt_length_of_exists hnode
  refine ⟨_, hlt, of_decide_eq_true (List.findIdx_getElem (w := hlt)), ?_⟩
  have hfirst : m.container.findIdx (fun e => decide (e.2 = a)) ≠ m.container.length := Nat.ne_of_lt hlt
  simp only [equalRangeKey, hf, position, if_pos hfirst]

theorem equalRangeKey_none {key : κ} (hf : find s m key = none) :
    equalRangeKey s m key = (m.container.length, m.container.length) := by
  simp only [equalRangeKey, hf, position, ne_eq, not_true_eq_false, if_false]

omit [DecidableEq η] in
theorem between_succ {i : Nat} (hi : i < m.container.length) :
    between s m i (i + 1) = [s.elem m.container[i].2] := by
  unfold between
  rw [Nat.add_sub_cancel_left, List.drop_eq_getElem_cons hi, List.take_succ_cons, List.take_zero,
    List.map_singleton]

/-- The node found is the only one between its iterator and the next. -/
theorem between_equalRange (h : Sound s m t) (hc : Consistent m.hasher m.pred) (key : κ) :
    between s m (equalRangeKey s m key).1 (equalRangeKey s m key).2 = (t key).toList := by
  cases hf : find s m key with
  | some a =>
    obtain ⟨i, hi, hat, hrange⟩ := equalRangeKey_some hf
    rw [h.find_some hf, hrange, between_succ hi, hat]
    rfl
  | none =>
    rw [h.find_none hc hf, equalRangeKey_none hf, between, Nat.sub_self, List.take_zero, List.map_nil]
    rfl

theorem erasedKeys_eq (h : Sound s m t) (hc : Consistent m.hasher m.pred) (key : κ) :
    erasedKeys s m key = (t key).isSome.toNat := by
  rw [erasedKeys, findSwapped_eq hc, ← h.isSome hc]
  cases find s m key <;> rfl

/-- One operation. -/
theorem step_refines [Inhabited υ] (h : Refines hasher pred u f) (hc : Consistent hasher pred)
    (op : Op κ υ η) :
    (step u op).Ok fun u' => Refines hasher pred u' (f.step pred (u.pointed op) op) := by
  obtain ⟨rfl, rfl, hs, -⟩ := id h
  cases op with
  | emplace key value order =>
    simp only [step, ok_bind]
    exact emplace_refines h hc key value order
  | insert obj order =>
    simp only [step, insert, ok_bind]
    exact emplace_refines h hc obj.1 obj.2 order
  | insertOrAssign key value order =>
    simp only [step, ok_bind]
    exact insertOrAssign_refines h hc key value order
  | eraseKey key =>
    exact (h.update (hs.eraseKey hc key) ⟨rfl, rfl⟩).answer (by rw [erasedKeys_eq hs hc])
  | eraseIterator i =>
    simp only [step, ok_bind, ok_requiring, List.eraseIdx_eq_take_drop_succ]
    exact fun _ => (h.update (hs.eraseRange hc (Nat.le_succ i)) ⟨rfl, rfl⟩).answer rfl
  | eraseRange first last =>
    simp only [step, ok_bind, ok_requiring]
    exact fun hle => (h.update (hs.eraseRange hc hle.1) ⟨rfl, rfl⟩).answer rfl
  | index key order =>
    simp only [step, ok_bind]
    exact (index_refines h hc key order).mono fun r hr => hr.1.answer (by rw [hr.2.1])
  | indexAssign key value order =>
    simp only [step, ok_bind]
    refine (index_refines h hc key order).mono fun (s, m, a) hr => ?_
    obtain ⟨hr, -, n, hn, rfl, hp⟩ := hr
    obtain ⟨hhasher, hpred, hs', -⟩ := id hr
    replace hhasher : m.hasher = u.map.hasher := hhasher
    replace hpred : m.pred = u.map.pred := hpred
    rw [← hhasher, ← hpred] at hc
    rw [← hpred] at hp
    have hassign := hs'.assign hc hn hp value
    rw [hpred] at hassign
    exact (hr.update hassign ⟨rfl, rfl⟩).answer rfl
  | atKey key =>
    simp only [step, atKey, FiniteMap.step]
    cases hf : find u.elements u.map key with
    | some a =>
      simp only [hs.find_some hf]
      exact h.answer rfl
    | none =>
      simp only [hs.find_none hc hf]
      exact h.answer rfl
  | atAssign key value =>
    simp only [step, atKey, FiniteMap.step]
    cases hf : find u.elements u.map key with
    | some a =>
      obtain ⟨hmem, hp⟩ := findIn_spec hf
      simp only [hs.find_some hf]
      exact (h.update (hs.assign hc hmem (hc.equal.symm hp) value) ⟨rfl, rfl⟩).answer rfl
    | none =>
      simp only [hs.find_none hc hf]
      exact h.answer rfl
  | find key => exact h.answer (by rw [hs.find_map hc])
  | count key => exact h.answer (by rw [count, contains, hs.isSome hc])
  | contains key => exact h.answer (by rw [contains, hs.isSome hc])
  | equalRange key => exact h.answer (by rw [between_equalRange hs hc])
  | clear =>
    exact (h.update (.empty _ _ _) ⟨rfl, rfl⟩).answer rfl

/-! ## Whole runs -/

/-- The iterators are good ones, and `order` is one of the arrangements there can be. -/
def Op.Valid (u : Use κ υ η) : Op κ υ η → Prop
  | .emplace key _ order | .insert (key, _) order | .insertOrAssign key _ order | .index key order
  | .indexAssign key _ order => order.Perm ((u.map.hasher key, u.elements.made) :: u.map.container)
  | .eraseIterator i => i < u.map.container.length
  | .eraseRange first last => first ≤ last ∧ last ≤ u.map.container.length
  | _ => True

theorem link_returns {key : κ} {a : Nat} {order : List (η × Nat)}
    (h : order.Perm ((m.hasher key, a) :: m.container)) :
    (m.link key a order).Returns fun _ => True := by
  simp [UnorderedMap.link, requiring_true h]

theorem emplace_returns {key : κ} (value : υ) {order : List (η × Nat)}
    (h : order.Perm ((m.hasher key, s.made) :: m.container)) :
    (emplace s m key value order).Returns fun _ => True := by
  simp only [emplace]
  split
  · trivial
  · exact returns_bind.mpr (link_returns h)

theorem insertOrAssign_returns {key : κ} (value : υ) {order : List (η × Nat)}
    (h : order.Perm ((m.hasher key, s.made) :: m.container)) :
    (insertOrAssign s m key value order).Returns fun _ => True := by
  unfold insertOrAssign
  split
  · trivial
  · exact returns_bind.mpr (link_returns h)

variable [Inhabited υ]

theorem index_returns {key : κ} {order : List (η × Nat)}
    (h : order.Perm ((m.hasher key, s.made) :: m.container)) :
    (index s m key order).Returns fun _ => True := by
  unfold index
  split
  · trivial
  · exact returns_bind.mpr (emplace_returns default h)

theorem step_returns {op : Op κ υ η} (h : op.Valid u) : (step u op).Returns fun _ => True := by
  cases op with
  | emplace key value order => exact returns_bind.mpr (emplace_returns value h)
  | insert obj order => exact returns_bind.mpr (emplace_returns obj.2 h)
  | insertOrAssign key value order => exact returns_bind.mpr (insertOrAssign_returns value h)
  | index key order => exact returns_bind.mpr (index_returns h)
  | indexAssign key value order => exact returns_bind.mpr (index_returns h)
  | eraseIterator i =>
    simp only [step, requiring_true (show i < u.map.container.length from h)]
    trivial
  | eraseRange first last =>
    simp only [step, requiring_true (show first ≤ last ∧ last ≤ u.map.container.length from h)]
    trivial
  | atAssign key value =>
    unfold step
    dsimp only
    split <;> trivial
  | _ => trivial

/-- The map and the finite map side by side. -/
def both (pred : κ → κ → Bool) (c : Use κ υ η × FiniteMap κ υ) (op : Op κ υ η) :
    Outcome (Use κ υ η × FiniteMap κ υ) := do
  let u ← step c.1 op
  return (u, c.2.step pred (c.1.pointed op) op)

theorem both_ok (hc : Consistent hasher pred) {c : Use κ υ η × FiniteMap κ υ}
    (h : Refines hasher pred c.1 c.2) (op : Op κ υ η) :
    (both pred c op).Ok fun d => Refines hasher pred d.1 d.2 := by
  simp only [both, ok_bind]
  exact (step_refines h hc op).mono fun _ hr => hr

/-- **The map refines a finite map**: whatever operations it is used by, the
answers are the same, the entries are those of the function, no two of them with
equal keys, and every valid operation goes on. -/
theorem refinesFiniteMap (hc : Consistent hasher pred) (s : Elements κ υ) (ops : List (Op κ υ η)) :
    (Runs.run (both pred) (.init s hasher pred, ⟨fun _ => none, []⟩) ops).Ok fun (u, f) =>
      u.answers = f.answers ∧ Lists pred u.contents f.table ∧
      ∀ op : Op κ υ η, op.Valid u → ∃ u', step u op = .next u' := by
  let I := fun c : Use κ υ η × FiniteMap κ υ => Refines hasher pred c.1 c.2
  have hinit : I (.init s hasher pred, ⟨fun _ => none, []⟩) := ⟨rfl, rfl, .empty s hasher pred, rfl⟩
  have hrun := Runs.Meets.ok_run (fun c op (hr : I c) _ => both_ok hc hr op) hinit (Runs.meets_true ops)
  refine hrun.mono fun (u, f) hr => ?_
  obtain ⟨rfl, rfl, hs, hanswers⟩ := hr
  refine ⟨hanswers, hs.lists, fun op hop => ?_⟩
  obtain ⟨u', hu, -⟩ := (step_returns hop).exists
  exact ⟨u', hu⟩

def oneHash : Use Nat Nat Unit := .init ⟨fun _ => (0, 0), 0⟩ (fun _ => ()) fun a b => a == b

def oneHashOps : List (Op Nat Nat Unit) :=
  [.emplace 5 1 [((), 0)], .insert (7, 2) [((), 1), ((), 0)], .emplace 5 3 [], .eraseIterator 0, .find 7,
    .atKey 5]

theorem refinesFiniteMap_oneHash :
    (Runs.run (both fun a b => a == b) (oneHash, ⟨fun _ => none, []⟩) oneHashOps).isNext ∧
    (Runs.run (both fun a b => a == b) (oneHash, ⟨fun _ => none, []⟩) oneHashOps).Ok fun (u, f) =>
      u.answers = f.answers ∧ Lists (fun a b => a == b) u.contents f.table ∧
      ∀ op : Op Nat Nat Unit, op.Valid u → ∃ u', step u op = .next u' :=
  ⟨by decide +kernel, refinesFiniteMap ⟨⟨by simp, by simp, by simp⟩, fun _ _ _ => rfl⟩ _ _⟩

end UnorderedMap
