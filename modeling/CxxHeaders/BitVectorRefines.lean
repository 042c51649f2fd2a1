/-
Bit vectors are lists of bits, but for ranges that are not walked twice alike.

`spec` says what the operations are for, in terms of lists. `view` is what can
be seen of the vectors, and every step that `spec` knows of commutes with it,
whatever stands behind the end of the vectors, unless the vector is made of a
range that is gone after the first walk, or is not empty and an empty range is
assigned to it (`Right`). `append` and `deserialize` are not among these steps,
nor is `resize`, which leaves the bits it adds undefined.
-/
import CxxHeaders.BitVectorFacts

open Outcome BitBlocks

namespace BitVector

variable {κ : Type} {w : Nat}

/-- The operations that lists have too. -/
def Act.isOfLists : Act κ → Bool
  | .resize .. | .clearAndRelease .. | .append .. | .deserialize .. => false
  | _ => true

/-- An operation, or the constructor from any range. -/
inductive Op (κ : Type) where
  | act (a : Act κ)
  | ofInputRange (x : κ) (range : InputRange)

def Op.isOfLists : Op κ → Bool
  | .act a => a.isOfLists
  | .ofInputRange .. => true

variable [DecidableEq κ]

def nextOp (c : κ → Option (BitVector w)) : Op κ → Outcome (κ → Option (BitVector w))
  | .act a => next c a
  | .ofInputRange x range => make c x (BitVector.ofInputRange range)

def spec (t : κ → Option (List Bool)) : Act κ → Outcome (κ → Option (List Bool))
  | .new x numBits val => make t x (.next (List.replicate numBits val))
  | .ofRange x range => make t x (.next range)
  | .moveNew x y => take t y [] fun t l => make t x (.next l)
  | .destroy x => do
    requiring (t x).isSome
    return Function.update t x none
  | .moveAssign x y => do
    requiring (x ≠ y)
    take t y [] fun t l => on t x fun _ => .next l
  | .swap x y => do
    requiring (x ≠ y)
    match t x with
    | none => .blocked
    | some m => take t y m fun t l => on t x fun _ => .next l
  | .pushBack x val => on t x fun l => .next (l ++ [val])
  | .popBack x => on t x fun l => do
    requiring (l ≠ [])
    return l.dropLast
  | .modify x idx op => on t x fun l => do
    requiring (idx < l.length)
    return l.modify idx op.value
  | .copyBit x i y j => onBoth t x y fun l m => do
    requiring (i < l.length ∧ j < m.length)
    return l.set i (m.getD j false)
  | .assign x y => do
    requiring (x ≠ y)
    onBoth t x y fun l m => do
      requiring (l.length = m.length)
      return m
  | .assignFill x n val => on t x fun _ => .next (List.replicate n val)
  | .assignRange x range => on t x fun l => do
    requiring (range ≠ [] → l.length = range.length)
    return range
  | .set x => on t x fun l => .next (l.map fun _ => true)
  | .reset x => on t x fun l => .next (l.map fun _ => false)
  | .flip x => on t x fun l => .next (l.map (!·))
  | .xorAssign x y => onBoth t x y fun l m => do
    requiring (l.length = m.length)
    return List.zipWith (· ^^ ·) l m
  | .orAssign x y => onBoth t x y fun l m => do
    requiring (l.length = m.length)
    return List.zipWith (· || ·) l m
  | .andAssign x y => onBoth t x y fun l m => do
    requiring (l.length = m.length)
    return List.zipWith (· && ·) l m
  | .clear x => on t x fun _ => .next []
  | _ => .blocked

def specOp (t : κ → Option (List Bool)) : Op κ → Outcome (κ → Option (List Bool))
  | .act a => spec t a
  | .ofInputRange x range => make t x (.next range.elems)

/-! ## What is seen of the vectors -/

omit [DecidableEq κ] in
section

def AllSized (c : κ → Option (BitVector w)) : Prop := ∀ x v, c x = some v → v.Sized

def view (c : κ → Option (BitVector w)) : κ → Option (List Bool) := fun x => (c x).map bits

theorem view_of_none {c : κ → Option (BitVector w)} {x : κ} (h : c x = none) : view c x = none := by
  rw [view, h, Option.map_none]

theorem view_of_some {c : κ → Option (BitVector w)} {x : κ} {v : BitVector w} (h : c x = some v) :
    view c x = some v.bits := by
  rw [view, h, Option.map_some]

end

variable {c : κ → Option (BitVector w)} {x y : κ}

theorem view_update (c : κ → Option (BitVector w)) (x : κ) (o : Option (BitVector w)) :
    view (Function.update c x o) = Function.update (view c) x (o.map bits) := by
  funext y
  by_cases h : y = x
  · subst h
    simp [view]
  · simp [view, Function.update_of_ne h]

theorem AllSized.update (h : AllSized c) {v : BitVector w} (hv : v.Sized) :
    AllSized (Function.update c x (some v)) := by
  intro y u hy
  by_cases hyx : y = x
  · subst hyx
    rw [Function.update_self, Option.some.injEq] at hy
    exact hy ▸ hv
  · rw [Function.update_of_ne hyx] at hy
    exact h y u hy

theorem AllSized.erase (h : AllSized c) : AllSized (Function.update c x none) := by
  intro y u hy
  by_cases hyx : y = x
  · subst hyx
    rw [Function.update_self] at hy
    cases hy
  · rw [Function.update_of_ne hyx] at hy
    exact h y u hy

/-- The lists are what is seen of the vectors. -/
def Viewed (d : κ → Option (BitVector w)) (t : κ → Option (List Bool)) : Prop :=
  AllSized d ∧ t = view d

theorem Viewed.update (h : AllSized c) {v : BitVector w} {l : List Bool} (hv : v.Sized ∧ v.bits = l) :
    Viewed (Function.update c x (some v)) (Function.update (view c) x (some l)) :=
  ⟨h.update hv.1, by rw [view_update, Option.map_some, hv.2]⟩

theorem make_refines (h : AllSized c) {l : List Bool} {v : Outcome (BitVector w)}
    (hv : v.Returns fun d => d.Sized ∧ d.bits = l) :
    Alike Viewed (make c x v) (make (view c) x (.next l)) := by
  refine Alike.requiring (by simp [view]) fun _ => ?_
  obtain ⟨d, rfl, hd⟩ := hv.exists
  exact .update h hd

theorem on_refines (h : AllSized c) {f : BitVector w → Outcome (BitVector w)}
    {g : List Bool → Outcome (List Bool)}
    (hf : ∀ v, v.Sized → Alike (fun d l => d.Sized ∧ d.bits = l) (f v) (g v.bits)) :
    Alike Viewed (on c x f) (on (view c) x g) := by
  unfold on
  cases hx : c x with
  | none =>
    simp only [view_of_none hx]
    trivial
  | some v =>
    simp only [view_of_some hx]
    exact (hf v (h x v hx)).bind fun d l hd => .update h hd

theorem onBoth_refines (h : AllSized c) {f : BitVector w → BitVector w → Outcome (BitVector w)}
    {g : List Bool → List Bool → Outcome (List Bool)} (hf : ∀ v u, v.Sized → u.Sized →
      Alike (fun d l => d.Sized ∧ d.bits = l) (f v u) (g v.bits u.bits)) :
    Alike Viewed (onBoth c x y f) (onBoth (view c) x y g) := by
  unfold onBoth
  cases hy : c y with
  | none =>
    simp only [view_of_none hy]
    trivial
  | some u =>
    simp only [view_of_some hy]
    exact on_refines h fun v hv => hf v u hv (h y u hy)

theorem take_refines (h : AllSized c) {moved : BitVector w} {m : List Bool}
    (hm : moved.Sized ∧ moved.bits = m)
    {f : (κ → Option (BitVector w)) → BitVector w → Outcome (κ → Option (BitVector w))}
    {g : (κ → Option (List Bool)) → List Bool → Outcome (κ → Option (List Bool))}
    (hf : ∀ d v, AllSized d → v.Sized → Alike Viewed (f d v) (g (view d) v.bits)) :
    Alike Viewed (take c y moved f) (take (view c) y m g) := by
  unfold take
  cases hy : c y with
  | none =>
    simp only [view_of_none hy]
    trivial
  | some u =>
    simp only [view_of_some hy]
    obtain ⟨hd, ht⟩ := Viewed.update (x := y) h hm
    rw [ht]
    exact hf _ u hd (h y u hy)

/-! ## The steps -/

/-- A vector whose operation is checked before it is done. -/
theorem checked_refines {p q : Prop} [Decidable p] [Decidable q] {f : Outcome (BitVector w)}
    {l : List Bool} (hpq : p ↔ q) (hf : p → f.Returns fun d => d.Sized ∧ d.bits = l) :
    Alike (fun d l => d.Sized ∧ d.bits = l) (requiring p >>= fun _ => f)
    (requiring q >>= fun _ => pure l) :=
  Alike.requiring hpq fun hp => (hf hp).alike fun _ hd => hd

/-- One vector replaces another. -/
theorem replace_refines (h : AllSized c) {v : BitVector w} (hv : v.Sized) :
    Alike Viewed (on c x fun _ => .next v) (on (view c) x fun _ => .next v.bits) :=
  on_refines h fun _ _ => ⟨hv, rfl⟩

/-- An empty range is assigned to empty vectors only. -/
def Act.Assigns (c : κ → Option (BitVector w)) : Act κ → Prop
  | .assignRange x range => range = [] → ∀ v, c x = some v → v.numBits = 0
  | _ => True

theorem assignRange_refines (hw : 0 < w) (h : AllSized c) {range : List Bool}
    (hr : range = [] → ∀ v, c x = some v → v.numBits = 0) :
    Alike Viewed (next c (.assignRange x range)) (spec (view c) (.assignRange x range)) := by
  simp only [next, spec, on]
  cases hx : c x with
  | none =>
    simp only [view_of_none hx]
    trivial
  | some v =>
    simp only [view_of_some hx]
    have hv := h x v hx
    refine (checked_refines (by rw [length_bits]) fun hn => ?_).bind fun d l hd => .update h hd
    refine (assignRange_ok hw hv hn).mono fun d hd => ⟨hd.1, hd.2.trans ?_⟩
    split
    · next hnil =>
      have hlen : v.bits.length = 0 := by rw [length_bits, hr hnil v hx]
      rw [hnil, List.length_eq_zero_iff.mp hlen]
    · rfl

theorem next_refines (hw : 0 < w) (h : AllSized c) (a : Act κ) (ha : a.isOfLists = true)
    (hr : a.Assigns c) : Alike Viewed (next c a) (spec (view c) a) := by
  have hempty : Sized (w := w) ⟨[], 0⟩ := (count_zero w).symm
  have hsame : ∀ v u : BitVector w, v.numBits = u.numBits ↔ v.bits.length = u.bits.length :=
    fun v u => by rw [length_bits, length_bits]
  cases a with
  | new x n val => exact make_refines (v := .next _) h (new_ok hw n val)
  | ofRange x range => exact make_refines h (ofInputRange_ok hw (.inl rfl))
  | moveNew x y =>
    exact take_refines (f := fun d v => make d x (.next v)) (g := fun t l => make t x (.next l)) h
      ⟨hempty, rfl⟩
      fun d v hd hv => make_refines (v := .next v) hd ⟨hv, rfl⟩
  | destroy x =>
    exact Alike.requiring (by simp [view]) fun _ => ⟨h.erase, by rw [view_update, Option.map_none]⟩
  | moveAssign x y =>
    exact Alike.requiring Iff.rfl fun _ => take_refines h ⟨hempty, rfl⟩ fun d v hd hv =>
      replace_refines hd hv
  | swap x y =>
    refine Alike.requiring Iff.rfl fun _ => ?_
    cases hx : c x with
    | none =>
      simp only [view_of_none hx]
      trivial
    | some u =>
      simp only [view_of_some hx]
      exact take_refines h ⟨h x u hx, rfl⟩ fun d v hd hv => replace_refines hd hv
  | pushBack x val => exact on_refines h fun v hv => (pushBack_ok hw hv val).alike fun _ hd => hd
  | popBack x =>
    refine on_refines h fun v hv => checked_refines ?_ (popBack_ok hw hv)
    rw [← length_bits, ne_eq, List.length_eq_zero_iff]
  | modify x idx op =>
    exact on_refines h fun v hv =>
      checked_refines (by rw [length_bits]) fun hi => modify_ok hw hv hi op
  | copyBit x i y j =>
    refine onBoth_refines h fun v u hv hu => Alike.requiring (by simp) fun hij => ?_
    obtain ⟨hi, hj⟩ := hij
    have hbit : u.bits.getD j false = bit u.blocks j := by
      have hj' : j < u.bits.length := by rwa [length_bits]
      rw [List.getD_eq_getElem _ _ hj', getElem_bits]
    rw [get_eq hw hu hj, hbit]
    refine (modify_ok hw hv hi _).alike fun d hd => ⟨hd.1, hd.2.trans ?_⟩
    refine List.ext_getElem (by simp) fun k hk hk' => ?_
    rw [List.getElem_modify, List.getElem_set]
    rfl
  | assign x y =>
    exact Alike.requiring Iff.rfl fun _ => onBoth_refines h fun v u hv hu =>
      checked_refines (hsame v u) (assign_ok hv hu)
  | assignFill x n val => exact on_refines h fun v _ => assignFill_ok hw v n val
  | assignRange x range => exact assignRange_refines hw h hr
  | set x => exact on_refines h fun v hv => set_ok hw hv
  | reset x => exact on_refines h fun v hv => reset_ok hw hv
  | flip x => exact on_refines h fun v hv => flip_ok hw hv
  | xorAssign x y =>
    exact onBoth_refines h fun v u hv hu => checked_refines (hsame v u)
      (combine_ok hw (fun _ _ _ _ => BitVec.getLsbD_xor) hv hu)
  | orAssign x y =>
    exact onBoth_refines h fun v u hv hu => checked_refines (hsame v u)
      (combine_ok hw (fun _ _ _ _ => BitVec.getLsbD_or) hv hu)
  | andAssign x y =>
    exact onBoth_refines h fun v u hv hu => checked_refines (hsame v u)
      (combine_ok hw (fun _ _ _ _ => BitVec.getLsbD_and) hv hu)
  | clear x => exact on_refines h fun v _ => ⟨v.clear_sized, rfl⟩
  | _ => cases ha

/-! ## Every run -/

/-- Every question about the vectors is answered as it is for the lists. -/
structure Answers (c : κ → Option (BitVector w)) (t : κ → Option (List Bool)) : Prop where
  isSome : ∀ x, (c x).isSome = (t x).isSome
  size : ∀ {x v l}, c x = some v → t x = some l → v.numBits = l.length
  get? : ∀ {x v l}, c x = some v → t x = some l → ∀ i, v.get? i = .next l[i]?
  equals : ∀ {x y v u l m}, c x = some v → c y = some u → t x = some l → t y = some m →
    v.equals u = .next (decide (l = m))

omit [DecidableEq κ] in
theorem AllSized.answers (hw : 0 < w) (h : AllSized c) : Answers c (view c) := by
  have hview : ∀ {x v l}, c x = some v → view c x = some l → v.bits = l := by
    intro x v l hv hl
    exact Option.some.inj ((view_of_some hv).symm.trans hl)
  refine ⟨fun x => by rw [view, Option.isSome_map], ?_, ?_, ?_⟩
  · intro x v l hv hl
    rw [← hview hv hl, length_bits]
  · intro x v l hv hl i
    rw [← hview hv hl, get?_eq hw (h x v hv)]
  · intro x y v u l m hv hu hl hm
    rw [← hview hv hl, ← hview hu hm, equals_eq hw (h x v hv) (h y u hu)]

omit [DecidableEq κ] in
theorem Answers.bits (hw : 0 < w) {t : κ → Option (List Bool)} (h : Answers c t) {v : BitVector w}
    {l : List Bool} (hx : c x = some v) (hl : t x = some l) (hv : v.Sized) : v.bits = l := by
  refine List.ext_getElem? fun i => ?_
  have hi := h.get? hx hl i
  rw [get?_eq hw hv] at hi
  exact Outcome.next.inj hi

/-- Where a step does what it does to lists. A range has to be walked twice for a
vector to be made of it, and an empty one is not assigned. -/
def Right (c : κ → Option (BitVector w)) : Op κ → Prop
  | .act a => a.Assigns c
  | .ofInputRange x range => c x = none → range.Walkable

theorem nextOp_refines (hw : 0 < w) (h : AllSized c) {a : Op κ} (ha : a.isOfLists = true) (hr : Right c a) :
    Alike Viewed (nextOp c a) (specOp (view c) a) := by
  cases a with
  | act a => exact next_refines hw h a ha hr
  | ofInputRange x range =>
    cases hx : c x with
    | none => exact make_refines h (ofInputRange_ok hw (hr hx))
    | some v =>
      simp only [nextOp, specOp, make, view_of_some hx, hx]
      trivial

/-- The vectors and the lists, side by side. -/
def step (s : (κ → Option (BitVector w)) × (κ → Option (List Bool))) (a : Op κ) :
    Outcome ((κ → Option (BitVector w)) × (κ → Option (List Bool))) :=
  both (nextOp s.1 a) (specOp s.2 a)

theorem right_iff (hw : 0 < w) {t : κ → Option (List Bool)} (h : Viewed c t) {a : Op κ}
    (ha : a.isOfLists = true) : Right c a ↔ (step (c, t) a).Ok fun d => Answers d.1 d.2 := by
  obtain ⟨h, rfl⟩ := h
  unfold step
  rw [ok_both]
  refine ⟨fun hr => (nextOp_refines hw h ha hr).mono fun d t hd => hd.2 ▸ hd.1.answers hw, fun hstep => ?_⟩
  cases a with
  | act a =>
    cases a with
    | assignRange x range =>
      intro hnil v hx
      simp only [nextOp, specOp, next, spec, on, hx, view_of_some hx, hnil, ne_eq, not_true_eq_false,
        false_implies, requiring_true, next_bind, assignRange, if_true, pure_eq] at hstep
      exact hstep.size (Function.update_self ..) (Function.update_self ..)
    | _ => trivial
  | ofInputRange x range =>
    intro hx
    simp only [nextOp, specOp, make, hx, view_of_none hx, Option.isNone_none, requiring_true, next_bind,
      pure_eq] at hstep
    cases hv : (BitVector.ofInputRange range : Outcome (BitVector w)) with
    | next v =>
      rw [hv] at hstep
      exact InputRange.walkable_of_bits hw hv fun hs =>
        Answers.bits hw hstep (Function.update_self ..) (Function.update_self ..) hs
    | _ =>
      rw [hv] at hstep
      exact hstep.elim

/-- **Bit vectors refine lists of bits.** Whatever is behind the end of the
vectors to begin with: along exactly those runs whose steps are all `Right`, the
vectors go on where the lists do, no assertion fails, no block is missing, and
size, bits and `==` are those of the lists. -/
theorem refinesLists_iff (block : UnsignedType) {c : κ → Option (BitVector block.bits)} (hc : AllSized c)
    {as : List (Op κ)} (has : ∀ a ∈ as, a.isOfLists = true) :
    Runs.Along step (fun _ _ d => Answers d.1 d.2) (c, view c) as ↔
      Runs.Meets step (fun s a => Right s.1 a) (c, view c) as := by
  refine Runs.along_iff_meets (I := fun s => Viewed s.1 s.2) (D := fun _ a => a.isOfLists = true) ?_ ?_ ⟨hc, rfl⟩
    (Runs.meets_of_forall has)
  · exact fun s a hs ha => right_iff block.bits_pos hs ha
  · intro s a t hs ha hn hq
    have hr : Right s.1 a := (right_iff block.bits_pos hs ha).mpr (by rw [hn]; exact hq)
    have hstep := nextOp_refines block.bits_pos hs.1 ha hr
    rw [← hs.2] at hstep
    exact (ok_both.mpr hstep).of_next hn

/-- Five bits of a block of ones, and what is done to them and to a copy that
is as long but has zeros behind its end. -/
def fiveOfEight : Bool → Option (BitVector UnsignedType.uint8.bits)
  | false => some ⟨[255#8], 5⟩
  | true => none

def fiveOfEightActs : List (Op Bool) :=
  [.ofInputRange true (.forward [true, true, true, true, true]), .act (.flip false), .act (.pushBack true false),
   .act (.popBack true), .act (.modify false 2 .flip), .act (.xorAssign true false), .act (.assign false true)]

theorem refinesLists_fiveOfEight :
    Runs.Along step (fun _ _ d => Answers d.1 d.2) (fiveOfEight, view fiveOfEight) fiveOfEightActs := by
  have hc : AllSized fiveOfEight := by
    intro x v hx
    cases x with
    | false =>
      cases hx
      rfl
    | true => cases hx
  refine (refinesLists_iff .uint8 hc (by decide)).mpr ?_
  simp [fiveOfEightActs, Runs.Meets, Right, Act.Assigns, InputRange.Walkable, InputRange.forward]

/-- No vector of two bits can be made of a stream; and one that is there stays as
it is when an empty range is assigned to it. -/
theorem not_refinesLists :
    (nextOp (w := 8) (fun _ => none) (.ofInputRange () (.stream [true, false])) = .failed ∧
      ∃ t, specOp (fun _ => none) (.ofInputRange () (.stream [true, false])) = .next t ∧
        t () = some [true, false]) ∧
    ∃ s, Runs.run (step (w := 8)) (fun _ => none, fun _ => none) [.act (.new () 2 true), .act (.assignRange () [])] =
      .next s ∧ (s.1 ()).map numBits = some 2 ∧ s.2 () = some [] :=
  ⟨⟨rfl, _, rfl, rfl⟩, _, rfl, rfl, rfl⟩

end BitVector
