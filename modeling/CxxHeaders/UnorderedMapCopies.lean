/-
Copies of an `UnorderedMap` share their elements, so that assigning to an
element of one changes the other. A run of operations leaves the maps
independent exactly if no operation assigns a new value to an element that
another map holds too (`independent_iff`).

`next_spec` says once what an operation does: which maps it replaces, and
which element it assigns to (`assigned`), if any. All other elements in use
stay as they are.
-/
import CxxHeaders.UnorderedMap
import Mathlib.Data.List.Find

open Outcome

/-! ## Elements that stay -/

namespace Elements

variable {κ υ : Type} {s t u : Elements κ υ} {a : Nat}

/-- What is allocated in `s` is there in `t`, unchanged. -/
structure Kept (s t : Elements κ υ) : Prop where
  made_le : s.made ≤ t.made
  elem : ∀ {a}, a < s.made → t.elem a = s.elem a

theorem Kept.refl (s : Elements κ υ) : Kept s s := ⟨Nat.le_refl _, fun _ => rfl⟩

theorem kept_allocate (s : Elements κ υ) (k : κ) (v : υ) : Kept s (s.allocate k v) :=
  ⟨Nat.le_succ _, fun h => Function.update_of_ne (Nat.ne_of_lt h) _ _⟩

theorem elem_allocate (s : Elements κ υ) (k : κ) (v : υ) : (s.allocate k v).elem s.made = (k, v) :=
  Function.update_self ..

theorem elem_assign (s : Elements κ υ) (a : Nat) (v : υ) : (s.assign a v).elem a = ((s.elem a).1, v) :=
  Function.update_self ..

theorem Kept.assign (h : Kept s t) (ha : a < s.made) (v : υ) : Kept (s.assign a v) (t.assign a v) := by
  refine ⟨h.made_le, fun {b} hb => ?_⟩
  unfold Elements.assign
  by_cases hba : b = a
  · simp [hba, h.elem ha]
  · simp only [Function.update_of_ne hba]
    exact h.elem hb

theorem Kept.assign_new (h : Kept s t) (ha : s.made ≤ a) (v : υ) : Kept s (t.assign a v) := by
  refine ⟨h.made_le, fun {b} hb => ?_⟩
  have hba : b ≠ a := by omega
  exact (Function.update_of_ne hba _ _).trans (h.elem hb)

end Elements

namespace UnorderedMap

open Elements

variable {κ υ η : Type} {s t : Elements κ υ} {m : UnorderedMap κ η}

/-- The nodes point to allocated elements. -/
def Within (m : UnorderedMap κ η) (s : Elements κ υ) : Prop := ∀ e ∈ m.container, e.2 < s.made

theorem Within.mono (h : Within m s) (hle : s.made ≤ t.made) : Within m t :=
  fun e he => Nat.lt_of_lt_of_le (h e he) hle

/-! ## Lookups -/

variable [DecidableEq η]

theorem findIn_mem {c : List (η × Nat)} {hash : η} {p : κ → Bool} {a : Nat}
    (h : findIn s c hash p = some a) :
    ∃ e ∈ c, e.2 = a := by
  obtain ⟨e, he, rfl⟩ := Option.map_eq_some_iff.mp h
  exact ⟨e, (List.mem_filter.mp (List.mem_of_find?_eq_some he)).1, rfl⟩

/-- What is found has the hash, and satisfies the predicate. -/
theorem findIn_spec {c : List (η × Nat)} {hash : η} {p : κ → Bool} {a : Nat}
    (h : findIn s c hash p = some a) : (hash, a) ∈ c ∧ p (s.elem a).1 = true := by
  obtain ⟨e, he, rfl⟩ := Option.map_eq_some_iff.mp h
  obtain ⟨hmem, hhash⟩ := List.mem_filter.mp (List.mem_of_find?_eq_some he)
  have hhash : e.1 = hash := by simpa using hhash
  exact ⟨hhash ▸ hmem, List.find?_some (p := fun e : η × Nat => p (s.elem e.2).1) he⟩

/-- What is there is found, or something else that satisfies the predicate. -/
theorem findIn_exists {c : List (η × Nat)} {hash : η} {p : κ → Bool} {a : Nat} (hmem : (hash, a) ∈ c)
    (hp : p (s.elem a).1 = true) : ∃ b, findIn s c hash p = some b := by
  have hrange : (hash, a) ∈ equalRange c hash := List.mem_filter.mpr ⟨hmem, by simp⟩
  cases hf : (equalRange c hash).find? fun e => p (s.elem e.2).1 with
  | none =>
    have hno := List.find?_eq_none.mp hf _ hrange
    exact absurd hp hno
  | some e => exact ⟨e.2, by rw [findIn, hf, Option.map_some]⟩

/-- A lookup only reads the elements of the container. -/
theorem findIn_congr {c : List (η × Nat)} (h : ∀ e ∈ c, t.elem e.2 = s.elem e.2) (hash : η)
    (p : κ → Bool) :
    findIn t c hash p = findIn s c hash p := by
  have hp : ∀ e ∈ equalRange c hash, p (t.elem e.2).1 = p (s.elem e.2).1 := fun e he => by
    rw [h e (List.mem_filter.mp he).1]
  unfold findIn
  rw [List.find?_congr hp]

theorem Within.mem (h : Within m s) {key : κ} {a : Nat} (hf : find s m key = some a) : a < s.made := by
  obtain ⟨e, he, rfl⟩ := findIn_mem hf
  exact h e he

theorem Within.mem_swapped (h : Within m s) {key : κ} {a : Nat} (hf : findSwapped s m key = some a) :
    a < s.made := by
  obtain ⟨e, he, rfl⟩ := findIn_mem hf
  exact h e he

theorem Within.findSwapped_allocate (h : Within m s) (k : κ) (v : υ) (key : κ) :
    findSwapped (s.allocate k v) m key = findSwapped s m key :=
  findIn_congr (fun e he => (kept_allocate s k v).elem (h e he)) _ _

/-! ## What a modifier does -/

/-- A new node points to the element allocated last. -/
theorem link_within (h : Within m s) (key : κ) (value : υ) (order : List (η × Nat)) :
    (m.link key s.made order).Ok fun m' => Within m' (s.allocate key value) := by
  simp only [link, ok_bind, ok_requiring]
  intro hperm e he
  rcases List.mem_cons.mp (hperm.mem_iff.mp he) with rfl | he
  · exact Nat.lt_succ_self _
  · exact Nat.lt_succ_of_lt (h e he)

/-- `emplace` leaves what there is as it is. -/
theorem emplace_ok (h : Within m s) (key : κ) (value : υ) (order : List (η × Nat)) :
    (emplace s m key value order).Ok fun (t, m', a, _) => Kept s t ∧ Within m' t ∧
      a = (findSwapped s m key).getD s.made := by
  simp only [emplace, h.findSwapped_allocate]
  cases findSwapped s m key with
  | some b => exact ⟨kept_allocate s key value, h.mono (kept_allocate s key value).made_le, rfl⟩
  | none =>
    simp only [ok_bind]
    exact (link_within h key value order).mono fun m' hm => ⟨kept_allocate s key value, hm, rfl⟩

/-- `insert_or_assign` assigns if it finds the key. -/
theorem insertOrAssign_ok (h : Within m s) (key : κ) (value : υ) (order : List (η × Nat)) :
    (insertOrAssign s m key value order).Ok fun (t, m', _, _) =>
      Kept ((findSwapped s m key).elim s (s.assign · value)) t ∧ Within m' t := by
  simp only [insertOrAssign]
  cases findSwapped s m key with
  | some b => exact ⟨.refl _, h⟩
  | none =>
    simp only [ok_bind]
    exact (link_within h key value order).mono fun m' hm => ⟨kept_allocate s key value, hm⟩

/-- `operator[]` looks for the key, and then `emplace` does once more. -/
def indexed (s : Elements κ υ) (m : UnorderedMap κ η) (key : κ) : Option Nat :=
  (find s m key).or (findSwapped s m key)

theorem index_ok [Inhabited υ] (h : Within m s) (key : κ) (order : List (η × Nat)) :
    (index s m key order).Ok fun (t, m', a) => Kept s t ∧ Within m' t ∧
      a = (indexed s m key).getD s.made := by
  simp only [index, indexed]
  cases find s m key with
  | some b => exact ⟨.refl s, h, rfl⟩
  | none =>
    simp only [ok_bind]
    exact (emplace_ok h key default order).mono fun _ hr => hr

theorem indexed_lt (h : Within m s) {key : κ} {a : Nat} (hi : indexed s m key = some a) :
    a < s.made := by
  unfold indexed at hi
  rcases Option.or_eq_some_iff.mp hi with hf | ⟨-, hf⟩
  · exact h.mem hf
  · exact h.mem_swapped hf

/-! ## Whole steps -/

/-- The maps that an operation is one on. -/
def Act.maps : Act κ υ η → List Nat
  | .moveConstruct m other | .moveAssign m other | .swap m other => [m, other]
  | .construct m _ _ | .copyConstruct m _ _ | .copyAssign m _ _ | .emplace m _ _ _
  | .insertOrAssign m _ _ _ | .index m _ _ | .indexAssign m _ _ _ | .atAssign m _ _
  | .iteratorAssign m _ _ | .eraseKey m _ | .eraseIterator m _ | .eraseRange m _ _ | .clear m
  | .destroy m => [m]

/-- The element that an operation assigns to, and the value. -/
def assigned (c : Config κ υ η) : Act κ υ η → Option (Nat × υ)
  | .insertOrAssign m key value _ => (c.map m).bind fun x => (findSwapped c.elements x key).map (·, value)
  | .indexAssign m key value _ => (c.map m).bind fun x => (indexed c.elements x key).map (·, value)
  | .atAssign m key value => (c.map m).bind fun x => (find c.elements x key).map (·, value)
  | .iteratorAssign m i value => (c.map m).bind fun x => (x.container[i]?).map (·.2, value)
  | _ => none

/-- The elements after it. -/
def assign (s : Elements κ υ) : Option (Nat × υ) → Elements κ υ
  | none => s
  | some (a, value) => s.assign a value

/-- Every map points to allocated elements. -/
def Bounded (c : Config κ υ η) : Prop := ∀ {n x}, c.map n = some x → Within x c.elements

/-- What a step does to the maps it is not on. -/
structure Spec (c : Config κ υ η) (a : Act κ υ η) (d : Config κ υ η) : Prop where
  map : ∀ n ∉ a.maps, d.map n = c.map n
  elements : Kept (assign c.elements (assigned c a)) d.elements
  bounded : Bounded d

theorem assign_made (s : Elements κ υ) (o : Option (Nat × υ)) : (assign s o).made = s.made := by
  cases o <;> rfl

omit [DecidableEq η] in
/-- A map of the configuration after one was replaced. -/
theorem Config.map_set {c : Config κ υ η} {m n : Nat} {x : Option (UnorderedMap κ η)} {y : UnorderedMap κ η}
    (hn : (c.set m x).map n = some y) : x = some y ∨ c.map n = some y := by
  replace hn : Function.update c.map m x n = some y := hn
  by_cases hnm : n = m
  · rw [hnm, Function.update_self] at hn
    exact .inl hn
  · rw [Function.update_of_ne hnm] at hn
    exact .inr hn

/-- One map is replaced. -/
theorem Spec.set {c : Config κ υ η} {a : Act κ υ η} {m : Nat} {x : Option (UnorderedMap κ η)}
    {s : Elements κ υ} (hb : Bounded c) (ha : m ∈ a.maps)
    (hs : Kept (assign c.elements (assigned c a)) s)
    (hx : ∀ y, x = some y → Within y s) : Spec c a (Config.set { c with elements := s } m x) := by
  have hle : c.elements.made ≤ s.made := assign_made c.elements (assigned c a) ▸ hs.made_le
  refine ⟨fun n hn => Function.update_of_ne (fun he : n = m => hn (he ▸ ha)) _ _, hs, fun {n y} hn => ?_⟩
  rcases Config.map_set hn with hn | hn
  · exact hx y hn
  · exact (hb hn).mono hle

/-- Two maps are replaced, and no element changes. -/
theorem Spec.set₂ {c : Config κ υ η} {a : Act κ υ η} {m k : Nat} {x y : UnorderedMap κ η}
    (hb : Bounded c)
    (hm : m ∈ a.maps) (hk : k ∈ a.maps) (ha : assigned c a = none) (hx : Within x c.elements)
    (hy : Within y c.elements) : Spec c a ((c.set m (some x)).set k (some y)) := by
  have hkept : Kept (assign c.elements (assigned c a)) c.elements := by
    rw [ha]
    exact .refl _
  have hfirst : Spec c a (c.set m (some x)) := .set hb hm hkept fun z hz => Option.some.inj hz ▸ hx
  refine ⟨fun n hn => ?_, hkept, fun {n z} hn => ?_⟩
  · exact (Function.update_of_ne (fun he : n = k => hn (he ▸ hk)) _ _).trans (hfirst.map n hn)
  · rcases Config.map_set hn with hn | hn
    · exact Option.some.inj hn ▸ hy
    · exact hfirst.bounded hn

/-- One map is replaced by one with no new nodes, and no element changes. -/
theorem Spec.fewer {c : Config κ υ η} {a : Act κ υ η} {m : Nat} {x y : UnorderedMap κ η} (hb : Bounded c)
    (ha : m ∈ a.maps) (hnone : assigned c a = none) {k : Nat} (hy : c.map k = some y)
    (hsub : ∀ e ∈ x.container, e ∈ y.container) : Spec c a (c.set m (some x)) := by
  refine .set hb ha ?_ fun z hz => ?_
  · rw [hnone]
    exact .refl _
  · rw [← Option.some.inj hz]
    exact fun e he => hb hy e (hsub e he)

/-- No map is replaced. -/
theorem Spec.same {c : Config κ υ η} {a : Act κ υ η} {s : Elements κ υ} (hb : Bounded c)
    (hs : Kept (assign c.elements (assigned c a)) s) : Spec c a { c with elements := s } :=
  ⟨fun _ _ => rfl, hs, fun hn => (hb hn).mono (assign_made c.elements (assigned c a) ▸ hs.made_le)⟩

section
variable [Inhabited υ]

theorem next_spec {c : Config κ υ η} (hb : Bounded c) (a : Act κ υ η) : (next c a).Ok (Spec c a) := by
  cases a with
  | construct m hasher pred =>
    simp only [next, ok_bind, ok_requiring]
    exact fun _ => .set hb (List.mem_singleton_self m) (.refl _) fun y hy => by
      cases hy
      exact fun e he => by cases he
  | copyConstruct m copy order =>
    simp only [next]
    cases hy : c.map copy with
    | none => trivial
    | some y =>
      simp only [ok_bind, ok_requiring]
      exact fun hp => .fewer hb (List.mem_singleton_self m) rfl hy fun e he => hp.2.mem_iff.mp he
  | copyAssign m rhs order =>
    simp only [next]
    split
    · next x y hx hy =>
      split
      · simp only [ok_bind, ok_requiring]
        exact fun hp => .fewer hb (List.mem_singleton_self m) rfl hy fun e he => hp.mem_iff.mp he
      · exact .same hb (.refl _)
    · trivial
  | moveConstruct m move =>
    simp only [next]
    cases hy : c.map move with
    | none => trivial
    | some y =>
      simp only [ok_bind, ok_requiring]
      exact fun _ => .set₂ hb (by simp [Act.maps]) (by simp [Act.maps]) rfl (hb hy) fun e he => by cases he
  | moveAssign m rhs =>
    simp only [next]
    split
    · next x y hx hy =>
      split
      · exact .set₂ hb (by simp [Act.maps]) (by simp [Act.maps]) rfl (hb hy) fun e he => by cases he
      · exact .same hb (.refl _)
    · trivial
  | swap m other =>
    simp only [next]
    split
    · next x y hx hy => exact .set₂ hb (by simp [Act.maps]) (by simp [Act.maps]) rfl (hb hy) (hb hx)
    · trivial
  | emplace m key value order =>
    simp only [next]
    cases hx : c.map m with
    | none => trivial
    | some x =>
      simp only [ok_bind]
      exact (emplace_ok (hb hx) key value order).mono fun r hr =>
        .set hb (List.mem_singleton_self m) hr.1 fun y hy => Option.some.inj hy ▸ hr.2.1
  | insertOrAssign m key value order =>
    simp only [next]
    cases hx : c.map m with
    | none => trivial
    | some x =>
      simp only [ok_bind]
      refine (insertOrAssign_ok (hb hx) key value order).mono fun r hr =>
        .set hb (List.mem_singleton_self m) ?_ fun y hy => Option.some.inj hy ▸ hr.2
      have hk := hr.1
      simp only [assigned, hx, Option.bind_some]
      cases hf : findSwapped c.elements x key <;> rw [hf] at hk <;> exact hk
  | index m key order =>
    simp only [next]
    cases hx : c.map m with
    | none => trivial
    | some x =>
      simp only [ok_bind]
      exact (index_ok (hb hx) key order).mono fun r hr =>
        .set hb (List.mem_singleton_self m) hr.1 fun y hy => Option.some.inj hy ▸ hr.2.1
  | indexAssign m key value order =>
    simp only [next]
    cases hx : c.map m with
    | none => trivial
    | some x =>
      simp only [ok_bind]
      refine (index_ok (hb hx) key order).mono fun r hr =>
        .set hb (List.mem_singleton_self m) ?_ fun y hy => Option.some.inj hy ▸ hr.2.1
      obtain ⟨hk, -, ha⟩ := hr
      simp only [assigned, hx, Option.bind_some]
      cases hf : indexed c.elements x key with
      | none =>
        -- The element is new, and nobody else's.
        rw [hf] at ha
        exact hk.assign_new (Nat.le_of_eq ha.symm) value
      | some b =>
        rw [hf] at ha
        exact ha ▸ hk.assign (indexed_lt (hb hx) hf) value
  | atAssign m key value =>
    simp only [next]
    cases hx : c.map m with
    | none => trivial
    | some x =>
      cases hf : find c.elements x key with
      | none =>
        simp only [hf]
        refine .same hb ?_
        simp only [assigned, hx, Option.bind_some, hf]
        exact .refl _
      | some b =>
        simp only [hf]
        refine .same hb ?_
        simp only [assigned, hx, Option.bind_some, hf]
        exact .refl _
  | iteratorAssign m i value =>
    simp only [next]
    cases hx : c.map m with
    | none => trivial
    | some x =>
      cases he : x.container[i]? with
      | none =>
        simp only [he]
        trivial
      | some e =>
        simp only [he]
        refine .same hb ?_
        simp only [assigned, hx, Option.bind_some, he]
        exact .refl _
  | eraseKey m key =>
    simp only [next]
    cases hx : c.map m with
    | none => trivial
    | some x => exact .fewer hb (List.mem_singleton_self m) rfl hx fun e he => List.mem_of_mem_eraseP he
  | eraseIterator m i =>
    simp only [next]
    cases hx : c.map m with
    | none => trivial
    | some x =>
      simp only [ok_bind, ok_requiring]
      exact fun _ => .fewer hb (List.mem_singleton_self m) rfl hx fun e he => List.mem_of_mem_eraseIdx he
  | eraseRange m first last =>
    simp only [next]
    cases hx : c.map m with
    | none => trivial
    | some x =>
      simp only [ok_bind, ok_requiring]
      refine fun _ => .fewer hb (List.mem_singleton_self m) rfl hx fun e he => ?_
      rcases List.mem_append.mp he with he | he
      · exact List.mem_of_mem_take he
      · exact List.mem_of_mem_drop he
  | clear m =>
    simp only [next]
    cases hx : c.map m with
    | none => trivial
    | some x => exact .fewer hb (List.mem_singleton_self m) rfl hx fun e he => by cases he
  | destroy m =>
    simp only [next]
    cases hx : c.map m with
    | none => trivial
    | some x => exact .set hb (List.mem_singleton_self m) (.refl _) fun y hy => by cases hy

end

/-! ## Independence -/

/-- The other maps hold what they held. -/
def Independent (c : Config κ υ η) (a : Act κ υ η) (d : Config κ υ η) : Prop :=
  ∀ n ∉ a.maps, d.contents n = c.contents n

/-- An element that another map holds is only assigned the value it has. -/
def Safe (c : Config κ υ η) (a : Act κ υ η) : Prop :=
  ∀ b value, assigned c a = some (b, value) → ∀ n ∉ a.maps, ∀ x, c.map n = some x →
    (∃ e ∈ x.container, e.2 = b) → (c.elements.elem b).2 = value

theorem elem_assign_eq {s : Elements κ υ} {b a : Nat} {value : υ} :
    (s.assign b value).elem a = s.elem a ↔ (a = b → (s.elem b).2 = value) := by
  unfold Elements.assign
  by_cases hab : a = b
  · subst hab
    simp [Prod.ext_iff, eq_comm]
  · simp [hab]

/-- What another map holds after the step. -/
theorem Spec.contents {c d : Config κ υ η} {a : Act κ υ η} (h : Spec c a d) (hb : Bounded c) {n : Nat}
    (hn : n ∉ a.maps) {x : UnorderedMap κ η} (hx : c.map n = some x) :
    d.contents n = some (x.container.map fun e => (assign c.elements (assigned c a)).elem e.2) := by
  have hd : d.map n = some x := (h.map n hn).trans hx
  simp only [Config.contents, hd, Option.map_some, Option.some.injEq, List.map_inj_left]
  intro e he
  exact h.elements.elem (by rw [assign_made]; exact hb hx e he)

theorem Spec.others_iff_safe {c d : Config κ υ η} {a : Act κ υ η} (h : Spec c a d) (hb : Bounded c) :
    Independent c a d ↔ Safe c a := by
  have hcontents : ∀ {n x}, c.map n = some x →
      c.contents n = some (x.container.map fun e => c.elements.elem e.2) := fun hx => by
    simp [Config.contents, hx]
  constructor
  · rintro hi b value ha n hn x hx ⟨e, he, rfl⟩
    have heq := hi n hn
    rw [h.contents hb hn hx, hcontents hx, ha, Option.some.injEq, List.map_inj_left] at heq
    exact elem_assign_eq.mp (heq e he) rfl
  · intro hs n hn
    cases hx : c.map n with
    | none =>
      have hd : d.map n = none := (h.map n hn).trans hx
      simp [Config.contents, hd, hx]
    | some x =>
      rw [h.contents hb hn hx, hcontents hx, Option.some.injEq, List.map_inj_left]
      intro e he
      cases ha : assigned c a with
      | none => rfl
      | some r => exact elem_assign_eq.mpr fun heb => hs r.1 r.2 ha n hn x hx ⟨e, he, heb⟩

variable [Inhabited υ]

/-- `operator[]` inserts nothing where it finds the key. -/
theorem index_eq (h : Within m s) {key : κ} {b : Nat} (hf : indexed s m key = some b)
    (order : List (η × Nat)) : ∃ t, index s m key order = .next (t, m, b) := by
  unfold indexed at hf
  simp only [index]
  rcases Option.or_eq_some_iff.mp hf with hf | ⟨hn, hf⟩
  · exact ⟨s, by simp [hf]⟩
  · exact ⟨s.allocate key default, by simp [hn, emplace, h.findSwapped_allocate, hf]⟩

/-- An operation that assigns to an element goes through. -/
theorem next_of_assigned {c : Config κ υ η} (hb : Bounded c) {a : Act κ υ η} {r : Nat × υ}
    (h : assigned c a = some r) : ∃ d, next c a = .next d := by
  cases a with
  | insertOrAssign m key value order =>
    obtain ⟨x, hx, h⟩ := Option.bind_eq_some_iff.mp h
    obtain ⟨b, hf, -⟩ := Option.map_eq_some_iff.mp h
    exact ⟨_, by simp [next, hx, insertOrAssign, hf]; rfl⟩
  | indexAssign m key value order =>
    obtain ⟨x, hx, h⟩ := Option.bind_eq_some_iff.mp h
    obtain ⟨b, hf, -⟩ := Option.map_eq_some_iff.mp h
    obtain ⟨t, ht⟩ := index_eq (hb hx) hf order
    exact ⟨_, by simp [next, hx, ht]; rfl⟩
  | atAssign m key value =>
    obtain ⟨x, hx, h⟩ := Option.bind_eq_some_iff.mp h
    obtain ⟨b, hf, -⟩ := Option.map_eq_some_iff.mp h
    exact ⟨_, by simp [next, hx, hf]; rfl⟩
  | iteratorAssign m i value =>
    obtain ⟨x, hx, h⟩ := Option.bind_eq_some_iff.mp h
    obtain ⟨e, hf, -⟩ := Option.map_eq_some_iff.mp h
    exact ⟨_, by simp [next, hx, hf]; rfl⟩
  | _ => cases h

theorem safe_iff {c : Config κ υ η} (hb : Bounded c) (a : Act κ υ η) :
    Safe c a ↔ (next c a).Ok (Independent c a) := by
  have hspec := next_spec hb a
  cases hn : next c a with
  | next d => exact ((hspec.of_next hn).others_iff_safe hb).symm
  | failed => exact absurd hn hspec.not_failed
  | blocked =>
    refine ⟨fun _ => trivial, fun _ b value ha => ?_⟩
    obtain ⟨d, hd⟩ := next_of_assigned hb ha
    cases hn.symm.trans hd
  | ended =>
    refine ⟨fun _ => trivial, fun _ b value ha => ?_⟩
    obtain ⟨d, hd⟩ := next_of_assigned hb ha
    cases hn.symm.trans hd

/-- **In every step of a run the maps that the operation is not on hold what
they held, exactly if every step assigns a new value only to an element that
no other map holds.** -/
theorem independent_iff (garbage : κ × υ) (as : List (Act κ υ η)) :
    Runs.Along next Independent (init garbage) as ↔
      Runs.Meets next Safe (init garbage) as :=
  Runs.along_iff_meets (I := Bounded) (D := fun _ _ => True) (fun _ a hb _ => safe_iff hb a)
    (fun _ a _ hb _ hn _ => ((next_spec hb a).of_next hn).bounded) nofun (Runs.meets_true as)

/-- A map with one element is copied, and the copy assigned to. -/
def assignCopy : List (Act Nat Nat Nat) :=
  [.construct 0 id (· == ·), .emplace 0 5 1 [(5, 0)], .copyConstruct 1 0 [(5, 0)], .insertOrAssign 1 5 2 []]

theorem assignCopy_shows : (∃ c : Config Nat Nat Nat,
    Runs.run next (init (0, 0)) assignCopy = .next c ∧ c.contents 0 = some [(5, 2)]) ∧
    ¬Runs.Along next Independent (init (0, 0)) assignCopy := by
  refine ⟨⟨_, rfl, rfl⟩, fun h => ?_⟩
  obtain ⟨-, -, -, hi, -⟩ := h
  have hcontents := hi 0 (by decide)
  cases hcontents

end UnorderedMap
