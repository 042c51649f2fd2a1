/-
Finite partial functions from keys up to an equivalence of keys, and the lists
of entries that stand for them. An entry keeps the key it was put in with.

`Lists` connects the two: no two entries of the list have equal keys, and the
function gives for a key the one entry whose key is equal to it. Every change
of the function is one of a list.
-/
import Mathlib.Data.List.Pairwise
import Mathlib.Data.List.Perm.Basic

namespace Entries

variable {κ υ : Type*}

/-- What a partial function has at a key: the key as it is stored, and its value. -/
abbrev Table (κ υ : Type*) := κ → Option (κ × υ)

section
variable (p : κ → κ → Bool)

/-- No two entries have equal keys. -/
def Distinct (l : List (κ × υ)) : Prop := l.Pairwise fun d e => ¬p d.1 e.1

def Lists (l : List (κ × υ)) (t : Table κ υ) : Prop :=
  Distinct p l ∧ ∀ x e, t x = some e ↔ e ∈ l ∧ p e.1 x

def put (t : Table κ υ) (key : κ) (value : υ) : Table κ υ := fun x =>
  if p key x then some (key, value) else t x

/-- A new value for a key; the stored one stays. -/
def replace (t : Table κ υ) (key : κ) (value : υ) : Table κ υ := fun x =>
  if p key x then (t x).map fun e => (e.1, value) else t x

def erase (t : Table κ υ) (key : κ) : Table κ υ := fun x => if p key x then none else t x

def eraseAll (t : Table κ υ) (keys : List κ) : Table κ υ := keys.foldl (erase p) t

end

variable {p : κ → κ → Bool} {l : List (κ × υ)} {t : Table κ υ}

theorem Lists.nil : Lists p ([] : List (κ × υ)) fun _ => none :=
  ⟨.nil, fun x e => by simp⟩

section
variable (hp : Equivalence fun a b => p a b = true)
include hp

theorem not_comm {a b : κ} (h : ¬p a b) : ¬p b a := fun hba => h (hp.symm hba)

theorem Lists.perm {l' : List (κ × υ)} (h : Lists p l t) (hl : l.Perm l') : Lists p l' t := by
  refine ⟨(hl.pairwise_iff fun {_ _} hne => not_comm hp hne).mp h.1, fun x e => ?_⟩
  rw [h.2, hl.mem_iff]

/-- Equal keys are the same to the function. -/
theorem Lists.congr (h : Lists p l t) {a b : κ} (hab : p a b) : t a = t b := by
  have hiff : ∀ e, t a = some e ↔ t b = some e := fun e => by
    rw [h.2, h.2]
    exact and_congr_right fun _ => ⟨fun he => hp.trans he hab, fun he => hp.trans he (hp.symm hab)⟩
  exact Option.ext hiff

theorem Lists.put (h : Lists p l t) {key : κ} (hkey : t key = none) (value : υ) :
    Lists p ((key, value) :: l) (put p t key value) := by
  have hnew : ∀ e ∈ l, ¬p e.1 key := fun e he hpe => by
    rw [(h.2 key e).mpr ⟨he, hpe⟩] at hkey
    cases hkey
  refine ⟨List.pairwise_cons.mpr ⟨fun e he => not_comm hp (hnew e he), h.1⟩, fun x e => ?_⟩
  unfold Entries.put
  rw [List.mem_cons]
  by_cases hx : p key x
  · rw [if_pos hx, Option.some.injEq]
    constructor
    · intro he
      subst he
      exact ⟨.inl rfl, hx⟩
    · intro he
      obtain ⟨rfl | hmem, hpe⟩ := he
      · rfl
      · exact absurd (hp.trans hpe (hp.symm hx)) (hnew e hmem)
  · rw [if_neg hx, h.2]
    constructor
    · exact fun he => ⟨.inr he.1, he.2⟩
    · intro he
      obtain ⟨rfl | hmem, hpe⟩ := he
      · exact absurd hpe hx
      · exact ⟨hmem, hpe⟩

theorem Lists.replace (h : Lists p l t) (key : κ) (value : υ) :
    Lists p (l.map fun e => if p key e.1 then (e.1, value) else e) (replace p t key value) := by
  have hkeys : ∀ e : κ × υ, (if p key e.1 then (e.1, value) else e).1 = e.1 := fun e => by
    split <;> rfl
  constructor
  · unfold Distinct
    rw [List.pairwise_map]
    exact h.1.imp fun {d e} hne => by rwa [hkeys, hkeys]
  · intro x e
    unfold Entries.replace
    rw [List.mem_map]
    by_cases hx : p key x
    · rw [if_pos hx, Option.map_eq_some_iff]
      constructor
      · intro he
        obtain ⟨d, hd, rfl⟩ := he
        obtain ⟨hmem, hpd⟩ := (h.2 x d).mp hd
        exact ⟨⟨d, hmem, if_pos (hp.trans hx (hp.symm hpd))⟩, hpd⟩
      · intro he
        obtain ⟨⟨d, hmem, rfl⟩, hpe⟩ := he
        rw [hkeys] at hpe
        exact ⟨d, (h.2 x d).mpr ⟨hmem, hpe⟩, (if_pos (hp.trans hx (hp.symm hpe))).symm⟩
    · rw [if_neg hx, h.2]
      constructor
      · intro he
        exact ⟨⟨e, he.1, if_neg fun hke => hx (hp.trans hke he.2)⟩, he.2⟩
      · intro he
        obtain ⟨⟨d, hmem, rfl⟩, hpe⟩ := he
        rw [hkeys] at hpe
        rw [if_neg fun hkd => hx (hp.trans hkd hpe)]
        exact ⟨hmem, hpe⟩

/-- The entry of an equal key goes. -/
theorem Lists.erase {e : κ × υ} (h : Lists p (e :: l) t) {key : κ} (hkey : p key e.1) :
    Lists p l (erase p t key) := by
  obtain ⟨hne, hl⟩ := List.pairwise_cons.mp h.1
  refine ⟨hl, fun x d => ?_⟩
  unfold Entries.erase
  by_cases hx : p key x
  · rw [if_pos hx]
    refine ⟨fun hd => (Option.some_ne_none d hd.symm).elim, fun hd => ?_⟩
    exact absurd (hp.trans (hp.symm hkey) (hp.trans hx (hp.symm hd.2))) (hne d hd.1)
  · rw [if_neg hx, h.2, List.mem_cons]
    constructor
    · intro hd
      obtain ⟨rfl | hmem, hpd⟩ := hd
      · exact absurd (hp.trans hkey hpd) hx
      · exact ⟨hmem, hpd⟩
    · exact fun hd => ⟨.inr hd.1, hd.2⟩

/-- Nothing goes where there is no equal key. -/
theorem Lists.erase_absent (h : Lists p l t) {key : κ} (hkey : t key = none) :
    Lists p l (Entries.erase p t key) := by
  have hsame : Entries.erase p t key = t := by
    funext x
    unfold Entries.erase
    split
    · next hx => rw [← h.congr hp hx, hkey]
    · rfl
  rw [hsame]
  exact h

theorem Lists.eraseAll {gone : List (κ × υ)} (h : Lists p (gone ++ l) t) :
    Lists p l (eraseAll p t (gone.map Prod.fst)) := by
  induction gone generalizing t with
  | nil => exact h
  | cons e gone ih => exact ih (h.erase hp (hp.refl e.1))

/-! ## Two functions -/

variable {l' : List (κ × υ)} {t' : Table κ υ}

theorem Lists.self (h : Lists p l t) {e : κ × υ} (he : e ∈ l) : t e.1 = some e := (h.2 _ _).mpr ⟨he, hp.refl e.1⟩

/-- Where the second function has an entry for every key of the first, these are
different ones. -/
theorem Lists.subperm (h : Lists p l t) (h' : Lists p l' t') (hkeys : ∀ e ∈ l, (t' e.1).isSome) :
    (l.map fun e => (t' e.1).getD e).Subperm l' := by
  have hget : ∀ e ∈ l, (t' e.1).getD e ∈ l' ∧ p ((t' e.1).getD e).1 e.1 := by
    intro e he
    obtain ⟨f, hf⟩ := Option.isSome_iff_exists.mp (hkeys e he)
    rw [hf]
    exact (h'.2 _ _).mp hf
  refine List.subperm_of_subset ?_ fun f hf => ?_
  · refine List.pairwise_map.mpr (h.1.imp_of_mem fun {d e} hd he hne heq => hne ?_)
    have hpd := (hget d hd).2
    rw [heq] at hpd
    exact hp.trans (hp.symm hpd) (hget e he).2
  · obtain ⟨e, he, rfl⟩ := List.mem_map.mp hf
    exact (hget e he).1

/-- Two functions have entries related by `R` at every key if and only if they
have as many, and those of the first are related to some. -/
theorem Lists.rel_iff {R : κ × υ → κ × υ → Prop} (h : Lists p l t) (h' : Lists p l' t') :
    (∀ x, Option.Rel R (t x) (t' x)) ↔ l.length = l'.length ∧ ∀ e ∈ l, ∃ f, t' e.1 = some f ∧ R e f := by
  have hkeys : (∀ e ∈ l, ∃ f, t' e.1 = some f ∧ R e f) → ∀ e ∈ l, (t' e.1).isSome := by
    intro hfirst e he
    obtain ⟨f, hf, -⟩ := hfirst e he
    rw [hf, Option.isSome_some]
  constructor
  · intro hrel
    have hfirst : ∀ e ∈ l, ∃ f, t' e.1 = some f ∧ R e f := by
      intro e he
      have hx := hrel e.1
      rw [h.self hp he] at hx
      cases hf : t' e.1 with
      | none => simp [hf] at hx
      | some f =>
        rw [hf] at hx
        exact ⟨f, rfl, Option.rel_some_some.mp hx⟩
    have hsecond : ∀ f ∈ l', (t f.1).isSome := by
      intro f hf
      have hx := hrel f.1
      rw [h'.self hp hf] at hx
      cases ht : t f.1 with
      | none => simp [ht] at hx
      | some e => rfl
    have hle := (h.subperm hp h' (hkeys hfirst)).length_le
    have hge := (h'.subperm hp h hsecond).length_le
    rw [List.length_map] at hle hge
    exact ⟨Nat.le_antisymm hle hge, hfirst⟩
  · rintro ⟨hlen, hfirst⟩ x
    have hle : l'.length ≤ (l.map fun e => (t' e.1).getD e).length := by
      rw [List.length_map]
      exact Nat.le_of_eq hlen.symm
    have hperm := (h.subperm hp h' (hkeys hfirst)).perm_of_length_le hle
    cases ht : t x with
    | some e =>
      obtain ⟨he, hpe⟩ := (h.2 _ _).mp ht
      obtain ⟨f, hf, hr⟩ := hfirst e he
      rw [← h'.congr hp hpe, hf]
      exact .some hr
    | none =>
      cases ht' : t' x with
      | none => exact .none
      | some f =>
        -- there is no entry left for it to be related to
        obtain ⟨hmem, hpf⟩ := (h'.2 _ _).mp ht'
        obtain ⟨e, he, heq⟩ := List.mem_map.mp (hperm.mem_iff.mpr hmem)
        obtain ⟨f', hf', -⟩ := hfirst e he
        rw [hf', Option.getD_some] at heq
        have hpe := ((h'.2 _ _).mp hf').2
        rw [heq] at hpe
        have hte := h.self hp he
        rw [h.congr hp (hp.trans (hp.symm hpe) hpf), ht] at hte
        cases hte

end

end Entries
