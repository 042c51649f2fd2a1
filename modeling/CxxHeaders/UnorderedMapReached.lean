/-
What holds of every map that a program can come to have (`Invariant.run`).

Of a predicate on a map and the elements it is enough that every change keeps
it: a new element, a new value, a new node, fewer nodes, or the same nodes in
another order. So every map stands for a finite map (`stands_invariant`), whatever
other maps share its elements.
-/
import CxxHeaders.UnorderedMapTransparent
import CxxHeaders.UnorderedMapRefines

open Outcome

namespace UnorderedMap

open Elements Entries

variable {κ υ η : Type} [DecidableEq η] {s s' : Elements κ υ} {m : UnorderedMap κ η} {key : κ} {value : υ}
  {order : List (η × Nat)} {P : Elements κ υ → UnorderedMap κ η → Prop}

omit [DecidableEq η] in
theorem assign_key (s : Elements κ υ) (a : Nat) (value : υ) (b : Nat) :
    ((s.assign a value).elem b).1 = (s.elem b).1 := by
  unfold Elements.assign
  by_cases hba : b = a
  · simp [hba]
  · simp [Function.update_of_ne hba]

/-! ## The rule -/

/-- Every change of a map, and of what it shares, keeps `P`. -/
structure Invariant (P : Elements κ υ → UnorderedMap κ η → Prop) : Prop where
  within : ∀ {s m}, P s m → Within m s
  kept : ∀ {s s' m}, P s m → Kept s s' → P s' m
  assign : ∀ {s m}, P s m → ∀ a value, P (s.assign a value) m
  link : ∀ {s m key order}, P s m → findSwapped s m key = none → ∀ value,
    order.Perm ((m.hasher key, s.made) :: m.container) → P (s.allocate key value) { m with container := order }
  fewer : ∀ {s m g rest}, P s m → m.container.Perm (g ++ rest) → P s { m with container := rest }

theorem Invariant.perm (hI : Invariant P) (h : P s m) (hp : order.Perm m.container) :
    P s { m with container := order } := hI.fewer (g := []) h hp.symm

theorem Invariant.sublist (hI : Invariant P) {rest : List (η × Nat)} (h : P s m)
    (hsub : rest.Sublist m.container) : P s { m with container := rest } := by
  obtain ⟨g, hg⟩ := hsub.exists_perm_append
  exact hI.fewer h (hg.trans List.perm_append_comm)

omit [DecidableEq η] in
theorem eraseRange_sublist {c : List (η × Nat)} {first last : Nat} (hle : first ≤ last) :
    (c.take first ++ c.drop last).Sublist c := by
  conv_rhs => rw [← List.take_append_drop first c]
  have hdrop : c.drop last = (c.drop first).drop (last - first) := by
    rw [List.drop_drop, Nat.add_sub_cancel' hle]
  rw [hdrop]
  exact (List.Sublist.refl _).append (List.drop_sublist _ _)

/-- What an operation on a map may do: whatever holds of the maps is kept, and
the map has it too. -/
def Keeps (P : Elements κ υ → UnorderedMap κ η → Prop) (s s' : Elements κ υ) (m' : UnorderedMap κ η) : Prop :=
  (∀ x, P s x → P s' x) ∧ P s' m'

theorem Invariant.emplace (hI : Invariant P) (h : P s m) :
    (emplace s m key value order).Ok fun r => Keeps P s r.1 r.2.1 := by
  simp only [UnorderedMap.emplace, (hI.within h).findSwapped_allocate]
  have hkept : ∀ x, P s x → P (s.allocate key value) x := fun x hx => hI.kept hx (kept_allocate s key value)
  cases hf : findSwapped s m key with
  | some b => exact ⟨hkept, hkept m h⟩
  | none =>
    simp only [UnorderedMap.link, ok_bind, ok_requiring]
    exact fun hp => ⟨hkept, hI.link h hf value hp⟩

theorem Invariant.insertOrAssign (hI : Invariant P) (h : P s m) :
    (insertOrAssign s m key value order).Ok fun r => Keeps P s r.1 r.2.1 := by
  unfold UnorderedMap.insertOrAssign
  cases hf : findSwapped s m key with
  | some b => exact ⟨fun x hx => hI.assign hx b value, hI.assign h b value⟩
  | none =>
    simp only [UnorderedMap.link, ok_bind, ok_requiring]
    exact fun hp => ⟨fun x hx => hI.kept hx (kept_allocate s key value), hI.link h hf value hp⟩

variable [Inhabited υ]

theorem Invariant.index (hI : Invariant P) (h : P s m) :
    (index s m key order).Ok fun r => Keeps P s r.1 r.2.1 := by
  unfold UnorderedMap.index
  cases hf : find s m key with
  | some b => exact ⟨fun _ hx => hx, h⟩
  | none =>
    simp only [ok_bind]
    exact (hI.emplace h).mono fun _ hr => hr

/-! ## Every map -/

def Config.All (P : Elements κ υ → UnorderedMap κ η → Prop) (c : Config κ υ η) : Prop :=
  ∀ n x, c.map n = some x → P c.elements x

variable {c : Config κ υ η}

omit [DecidableEq η] [Inhabited υ] in
theorem Config.All.elements (h : c.All P) {s : Elements κ υ} (hs : ∀ x, P c.elements x → P s x) :
    Config.All P { c with elements := s } := fun n x hx => hs x (h n x hx)

omit [DecidableEq η] [Inhabited υ] in
theorem Config.All.set (h : c.All P) {m : Nat} {x : Option (UnorderedMap κ η)}
    (hx : ∀ y, x = some y → P c.elements y) : (c.set m x).All P := by
  intro n y hn
  rcases Config.map_set hn with hn | hn
  · exact hx y hn
  · exact h n y hn

omit [DecidableEq η] [Inhabited υ] in
theorem Config.All.set_some (h : c.All P) {m : Nat} {x : UnorderedMap κ η} (hx : P c.elements x) :
    (c.set m (some x)).All P := h.set fun _ hy => Option.some.inj hy ▸ hx

omit [DecidableEq η] [Inhabited υ] in
theorem Config.All.keeps (h : c.All P) {m : Nat} {s : Elements κ υ} {x : UnorderedMap κ η}
    (hx : Keeps P c.elements s x) : (Config.set { c with elements := s } m (some x)).All P :=
  Config.All.set_some (h.elements hx.1) hx.2

/-- The empty maps that are constructed have `P`. -/
def Act.Starts (P : Elements κ υ → UnorderedMap κ η → Prop) : Act κ υ η → Prop
  | .construct _ hasher pred => ∀ s, P s ⟨hasher, pred, []⟩
  | _ => True

theorem Invariant.next (hI : Invariant P) (h : c.All P) {a : Act κ υ η} (ha : a.Starts P) :
    (next c a).Ok (Config.All P) := by
  cases a with
  | construct m hasher pred =>
    simp only [UnorderedMap.next, ok_bind, ok_requiring]
    exact fun _ => h.set_some (ha _)
  | copyConstruct m copy order =>
    simp only [UnorderedMap.next]
    cases hy : c.map copy with
    | none => trivial
    | some y =>
      simp only [ok_bind, ok_requiring]
      exact fun hp => h.set_some (hI.perm (h _ _ hy) hp.2)
  | copyAssign m rhs order =>
    simp only [UnorderedMap.next]
    split
    · next x y hx hy =>
      split
      · simp only [ok_bind, ok_requiring]
        exact fun hp => h.set_some (hI.perm (h _ _ hy) hp)
      · exact h
    · trivial
  | moveConstruct m move =>
    simp only [UnorderedMap.next]
    cases hy : c.map move with
    | none => trivial
    | some y =>
      simp only [ok_bind, ok_requiring]
      exact fun _ => Config.All.set_some (h.set_some (h _ _ hy)) (hI.sublist (h _ _ hy) (List.nil_sublist _))
  | moveAssign m rhs =>
    simp only [UnorderedMap.next]
    split
    · next x y hx hy =>
      split
      · exact Config.All.set_some (h.set_some (h _ _ hy)) (hI.sublist (h _ _ hy) (List.nil_sublist _))
      · exact h
    · trivial
  | swap m other =>
    simp only [UnorderedMap.next]
    split
    · next x y hx hy => exact Config.All.set_some (h.set_some (h _ _ hy)) (h _ _ hx)
    · trivial
  | emplace m key value order =>
    simp only [UnorderedMap.next]
    cases hx : c.map m with
    | none => trivial
    | some x =>
      simp only [ok_bind]
      exact (hI.emplace (h _ _ hx)).mono fun _ hr => h.keeps hr
  | insertOrAssign m key value order =>
    simp only [UnorderedMap.next]
    cases hx : c.map m with
    | none => trivial
    | some x =>
      simp only [ok_bind]
      exact (hI.insertOrAssign (h _ _ hx)).mono fun _ hr => h.keeps hr
  | index m key order =>
    simp only [UnorderedMap.next]
    cases hx : c.map m with
    | none => trivial
    | some x =>
      simp only [ok_bind]
      exact (hI.index (h _ _ hx)).mono fun _ hr => h.keeps hr
  | indexAssign m key value order =>
    simp only [UnorderedMap.next]
    cases hx : c.map m with
    | none => trivial
    | some x =>
      simp only [ok_bind]
      refine (hI.index (h _ _ hx)).mono fun r hr => h.keeps ⟨fun x hx => ?_, hI.assign hr.2 _ value⟩
      exact hI.assign (hr.1 x hx) _ value
  | atAssign m key value =>
    simp only [UnorderedMap.next]
    cases hx : c.map m with
    | none => trivial
    | some x =>
      cases hf : find c.elements x key with
      | none =>
        simp only [hf]
        exact h
      | some b =>
        simp only [hf]
        exact h.elements fun _ hy => hI.assign hy b value
  | iteratorAssign m i value =>
    simp only [UnorderedMap.next]
    cases hx : c.map m with
    | none => trivial
    | some x =>
      cases he : x.container[i]? with
      | none =>
        simp only [he]
        trivial
      | some e =>
        simp only [he]
        exact h.elements fun _ hy => hI.assign hy e.2 value
  | eraseKey m key =>
    simp only [UnorderedMap.next]
    cases hx : c.map m with
    | none => trivial
    | some x => exact h.set_some (hI.sublist (h _ _ hx) List.eraseP_sublist)
  | eraseIterator m i =>
    simp only [UnorderedMap.next]
    cases hx : c.map m with
    | none => trivial
    | some x =>
      simp only [ok_bind, ok_requiring]
      exact fun _ => h.set_some (hI.sublist (h _ _ hx) (List.eraseIdx_sublist _ _))
  | eraseRange m first last =>
    simp only [UnorderedMap.next]
    cases hx : c.map m with
    | none => trivial
    | some x =>
      simp only [ok_bind, ok_requiring]
      exact fun hle => h.set_some (hI.sublist (h _ _ hx) (eraseRange_sublist hle.1))
  | clear m =>
    simp only [UnorderedMap.next]
    cases hx : c.map m with
    | none => trivial
    | some x => exact h.set_some (hI.sublist (h _ _ hx) (List.nil_sublist _))
  | destroy m =>
    simp only [UnorderedMap.next]
    cases hx : c.map m with
    | none => trivial
    | some x => exact h.set fun _ hy => by cases hy

/-- The same for a call. -/
def Call.Starts (P : Elements κ υ → UnorderedMap κ η → Prop) : Call κ υ η → Prop
  | .act a => a.Starts P
  | _ => True

theorem Invariant.call (hI : Invariant P) (h : c.All P) {a : Call κ υ η} (ha : a.Starts P) :
    (call c a).Ok (Config.All P) := by
  have herase : ∀ {x : UnorderedMap κ η} {it : Option (η × Nat)}, P c.elements x →
      P c.elements { x with container := (TransparentErase.erase x.container it).1 } := by
    intro x it hx
    cases it with
    | none => exact hx
    | some e => exact hI.sublist hx List.erase_sublist
  cases a with
  | act a => exact hI.next h ha
  | rehash m order =>
    simp only [UnorderedMap.call]
    cases hx : c.map m with
    | none => trivial
    | some x =>
      simp only [ok_bind, ok_requiring]
      exact fun hp => h.set_some (hI.perm (h _ _ hx) hp)
  | eraseHashed m hash pred | eraseLinear m pred =>
    unfold UnorderedMap.call
    cases hx : c.map m with
    | none =>
      simp only [hx]
      trivial
    | some x =>
      simp only [hx]
      exact h.set_some (herase (h _ _ hx))

/-- **Every map there ever is.** -/
theorem Invariant.run (hI : Invariant P) (garbage : κ × υ) {calls : List (Call κ υ η)}
    (hcalls : ∀ a ∈ calls, a.Starts P) :
    (Runs.run UnorderedMap.call (init garbage) calls).Ok (Config.All P) := by
  have hinit : Config.All P (init garbage : Config κ υ η) := fun _ _ h => by cases h
  exact Runs.Meets.ok_run (fun c a h ha => hI.call h ha) hinit (Runs.meets_of_forall hcalls)

/-! ## What holds of them -/

omit [Inhabited υ] in
theorem stored_invariant : Invariant (Stored : Elements κ υ → UnorderedMap κ η → Prop) where
  within h := h.within
  kept h hs := h.kept hs
  assign {s _} h a value := h.congr (Nat.le_refl _) fun e _ => assign_key s a value e.2
  link h _ value hp := h.link value hp
  fewer {_ _ g _} h hp := h.fewer fun _ he => hp.mem_iff.mpr (List.mem_append_right g he)

/-- The map stands for a finite map, up to equality of keys by `pred`. -/
structure Stands (pred : κ → κ → Bool) (s : Elements κ υ) (m : UnorderedMap κ η) : Prop where
  pred : m.pred = pred
  consistent : Consistent m.hasher m.pred
  sound : ∃ t, Sound s m t

omit [Inhabited υ] in
theorem stands_invariant (pred : κ → κ → Bool) :
    Invariant (Stands pred : Elements κ υ → UnorderedMap κ η → Prop) where
  within h := by
    obtain ⟨t, ht⟩ := h.sound
    exact ht.within
  kept h hs := by
    obtain ⟨hpred, hc, t, ht⟩ := h
    exact ⟨hpred, hc, t, ht.kept hs⟩
  assign {s m} h a value := by
    obtain ⟨hpred, hc, t, ht⟩ := h
    refine ⟨hpred, hc, ?_⟩
    by_cases hmem : ∃ n ∈ m.container, n.2 = a
    · obtain ⟨n, hn, rfl⟩ := hmem
      exact ⟨_, ht.assign hc hn (hc.equal.refl _) value⟩
    · refine ⟨t, ht.congr (Nat.le_refl _) fun e he => ?_⟩
      exact Function.update_of_ne (fun hea : e.2 = a => hmem ⟨e, he, hea⟩) _ _
  link {s m key order} h hf value hp := by
    obtain ⟨hpred, hc, t, ht⟩ := h
    rw [findSwapped_eq hc] at hf
    exact ⟨hpred, hc, _, ht.link hc (ht.find_none hc hf) value hp⟩
  fewer h hp := by
    obtain ⟨hpred, hc, t, ht⟩ := h
    exact ⟨hpred, hc, _, ht.fewer hc hp⟩

end UnorderedMap
