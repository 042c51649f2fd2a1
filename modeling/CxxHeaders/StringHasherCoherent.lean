/-
Strings that are the same key have the same hash, but for one case.

A hash and a comparison look at all characters of a string, except that both
stop at the first NUL where a C string takes part in the comparison. So a
`std::string` that goes on behind a NUL is the same key as the C string that
ends there, and is hashed as a whole (`Truncated`).
-/
import CxxHeaders.StringHasher
import CxxHeaders.UnorderedMapCopies
import Mathlib.Data.List.TakeWhile

open UnorderedMap

namespace StringHasher

/-- One is a `std::string` with a NUL in it, the other the C string of what is
in front of the first one. -/
def Truncated : Str → Str → Prop
  | .string a, .cString b => 0 ∈ a ∧ b.chars = a.takeWhile (· ≠ 0)
  | .cString a, .string b => 0 ∈ b ∧ a.chars = b.takeWhile (· ≠ 0)
  | _, _ => False

/-! ## Keys -/

theorem strcmp_iff {as bs : List UInt8} (hb : 0 ∉ bs) :
    strcmp (cStr as) (bs ++ [0]) = true ↔ bs = as.takeWhile (· ≠ 0) := by
  induction as generalizing bs with
  | nil =>
    cases bs with
    | nil => decide
    | cons b bs =>
      have hne : (0 : UInt8) ≠ b := fun he => hb (he ▸ List.mem_cons_self)
      simp [cStr, strcmp, hne]
  | cons a as ih =>
    cases bs with
    | nil =>
      by_cases ha : a = 0
      · simp [cStr, strcmp, ha]
      · simp [cStr, strcmp, ha]
    | cons b bs =>
      have hbs : 0 ∉ bs := fun hm => hb (List.mem_cons_of_mem b hm)
      have hne : b ≠ 0 := fun he => hb (he ▸ List.mem_cons_self)
      by_cases hab : a = b
      · subst hab
        simpa [cStr, strcmp, hne] using ih hbs
      · by_cases ha : a = 0
        · have hzero : (0 : UInt8) ≠ b := Ne.symm hne
          simp [cStr, strcmp, ha, hzero]
        · simp [cStr, strcmp, hab, ha, Ne.symm hab]

theorem strcmp_comm (as bs : List UInt8) : strcmp as bs = strcmp bs as := by
  induction as generalizing bs with
  | nil => cases bs <;> rfl
  | cons a as ih =>
    cases bs with
    | nil => rfl
    | cons b bs =>
      by_cases hab : a = b
      · simp [strcmp, hab, ih]
      · simp [strcmp, hab, Ne.symm hab]

theorem equal_iff {as bs : List UInt8} (h : as.length = bs.length) : equal bs as = true ↔ as = bs := by
  induction as generalizing bs with
  | nil =>
    have hbs : bs = [] := List.eq_nil_of_length_eq_zero h.symm
    subst hbs
    decide
  | cons a as ih =>
    cases bs with
    | nil => cases h
    | cons b bs =>
      rw [List.length_cons, List.length_cons, Nat.add_right_cancel_iff] at h
      rw [equal, List.cons.injEq]
      by_cases hab : b = a
      · rw [if_pos hab, ih h]
        exact ⟨fun he => ⟨hab.symm, he⟩, fun he => he.2⟩
      · rw [if_neg hab]
        exact iff_of_false Bool.false_ne_true fun he => hab he.1.symm

theorem walk_iff {as bs : List UInt8} : walk as bs = true ↔ as = bs := by
  induction as generalizing bs with
  | nil => cases bs <;> simp [walk]
  | cons a as ih =>
    cases bs with
    | nil => simp [walk]
    | cons b bs =>
      by_cases hab : a = b
      · simp [walk, hab, ih]
      · simp [walk, hab]

/-- The characters that are compared with those of a `std::string`. -/
def Str.seen (a : List UInt8) : Str → List UInt8
  | .cString _ => a.takeWhile (· ≠ 0)
  | _ => a

def Str.chars : Str → List UInt8
  | .string v => v
  | .cString v => v.chars
  | .bounded v => v
  | .walked v => v

theorem stringEqual_iff (a : List UInt8) (b : Str) : stringEqual a b = true ↔ b.chars = b.seen a := by
  cases b with
  | string b => simp [stringEqual, Str.chars, Str.seen, eq_comm]
  | cString b => exact strcmp_iff b.not_mem
  | bounded b =>
    simp only [stringEqual, Str.chars, Str.seen]
    split
    · next hne => exact iff_of_false (by simp) fun he => hne (congrArg List.length he.symm)
    · next heq => rw [equal_iff (by simpa using heq), eq_comm]
  | walked b => exact walk_iff.trans eq_comm

/-- It does not matter which one comes first. -/
theorem keyEqual_swap (a : List UInt8) (b : Str) :
    keyEqual b (.string a) = some (stringEqual a b) := by
  cases b with
  | string b => simp [keyEqual, stringEqual, eq_comm]
  | cString b => exact congrArg some (strcmp_comm _ _)
  | _ => rfl

theorem truncated_swap (a b : Str) : Truncated a b ↔ Truncated b a := by
  cases a <;> cases b <;> rfl

/-! ## Hashes -/

variable {combine : UInt64 → UInt8 → UInt64}

theorem hashToNul_eq {v : List UInt8} (h : 0 ∉ v) (seed : UInt64) :
    hashToNul combine seed (v ++ [0]) = v.foldl combine seed := by
  induction v generalizing seed with
  | nil => rfl
  | cons c cs ih =>
    have hc : c ≠ 0 := fun he => h (he ▸ List.mem_cons_self)
    have hcs : 0 ∉ cs := fun hm => h (List.mem_cons_of_mem c hm)
    simp only [List.cons_append, hashToNul, if_neg hc, ih hcs, List.foldl_cons]

theorem hash_eq (combine : UInt64 → UInt8 → UInt64) (v : Str) :
    hash combine v = hashRange combine v.chars := by
  cases v with
  | cString v => exact hashToNul_eq v.not_mem 0
  | _ => rfl

/-- A way to mix hashes that only sees whether there was a NUL. -/
def sawNul (seed : UInt64) (c : UInt8) : UInt64 := if c = 0 then 1 else seed

theorem hashRange_sawNul (v : List UInt8) : hashRange sawNul v = if 0 ∈ v then 1 else 0 := by
  have hfold : ∀ (v : List UInt8) seed, v.foldl sawNul seed = if 0 ∈ v then 1 else seed := by
    intro v
    induction v with
    | nil => exact fun _ => rfl
    | cons c cs ih =>
      intro seed
      rw [List.foldl_cons, ih]
      by_cases hc : c = 0
      · simp [sawNul, hc]
      · simp [sawNul, hc, Ne.symm hc]
  exact hfold v 0

/-! ## Coherence -/

/-- Whatever the hash is made with, equal keys have the same one. -/
def Coherent (a b : Str) : Prop :=
  ∀ combine, keyEqual a b = some true → hash combine a = hash combine b

theorem coherent_swap {a b : Str} (h : Coherent a b) (heq : keyEqual b a = keyEqual a b) :
    Coherent b a :=
  fun combine hb => (h combine (heq ▸ hb)).symm

/-- A `std::string` and any string. -/
theorem coherent_string_iff (a : List UInt8) (b : Str) :
    Coherent (.string a) b ↔ ¬Truncated (.string a) b := by
  have hkey : keyEqual (.string a) b = some true ↔ b.chars = b.seen a := by
    rw [← stringEqual_iff]
    exact Option.some_inj
  have hhash : ∀ combine, hash combine (.string a) = hashRange combine a := fun _ => rfl
  cases b with
  | cString b =>
    constructor
    · intro h ht
      obtain ⟨hmem, hchars⟩ := ht
      have heq := h sawNul (hkey.mpr hchars)
      rw [hhash, hash_eq, hashRange_sawNul, hashRange_sawNul, if_pos hmem] at heq
      rw [if_neg (show 0 ∉ (Str.cString b).chars from b.not_mem)] at heq
      exact absurd heq (by decide)
    · intro hnot combine hk
      have hchars : b.chars = a.takeWhile (· ≠ 0) := hkey.mp hk
      have hmem : 0 ∉ a := fun hm => hnot ⟨hm, hchars⟩
      have hwhole : a.takeWhile (· ≠ 0) = a := by
        refine List.takeWhile_eq_self_iff.mpr fun c hc => ?_
        simpa using fun he : c = 0 => hmem (he ▸ hc)
      rw [hhash, hash_eq, Str.chars, hchars, hwhole]
  | _ =>
    refine iff_of_true (fun combine hk => ?_) id
    rw [hhash, hash_eq, hkey.mp hk]
    rfl

theorem coherent_iff (a b : Str) : Coherent a b ↔ ¬Truncated a b := by
  cases a with
  | string a => exact coherent_string_iff a b
  | _ =>
    cases b with
    | string b =>
      rw [truncated_swap, ← coherent_string_iff]
      have heq := keyEqual_swap b
      exact ⟨fun h => coherent_swap h (heq _).symm, fun h => coherent_swap h (heq _)⟩
    | _ => exact iff_of_true (fun combine hk => by cases hk) id

/-! ## Lookups -/

/-- Every node carries the hash of its key. -/
def Hashed {υ : Type} (combine : UInt64 → UInt8 → UInt64) (s : Elements (List UInt8) υ)
    (container : List (UInt64 × Nat)) : Prop :=
  ∀ e ∈ container, e.1 = hashRange combine (s.elem e.2).1

/-- In every map with the key `a`, and no other key that is equal to `b`, a
lookup of `b` finds `a` just when the two are equal. -/
def FoundWhenEqual (a : List UInt8) (b : Str) : Prop :=
  ∀ (combine : UInt64 → UInt8 → UInt64) (υ : Type) (s : Elements (List UInt8) υ)
    (container : List (UInt64 × Nat)), Hashed combine s container →
    (∃ e ∈ container, (s.elem e.2).1 = a) →
    (∀ e ∈ container, stringEqual (s.elem e.2).1 b = true → (s.elem e.2).1 = a) →
    ((∃ n, find combine s container b = some n ∧ (s.elem n).1 = a) ↔ stringEqual a b = true)

theorem foundWhenEqual_of_coherent {a : List UInt8} {b : Str} (h : Coherent (.string a) b) :
    FoundWhenEqual a b := by
  intro combine υ s container hhashed hmem honly
  constructor
  · intro hf
    obtain ⟨n, hfind, hn⟩ := hf
    obtain ⟨-, hp⟩ := findIn_spec hfind
    rwa [hn] at hp
  · intro heq
    obtain ⟨e, he, hkey⟩ := hmem
    have hhash : e.1 = hash combine b := by
      rw [hhashed e he, hkey]
      exact h combine (congrArg some heq)
    have hnode : (hash combine b, e.2) ∈ container := hhash ▸ he
    obtain ⟨n, hn⟩ := findIn_exists (p := fun stored => stringEqual stored b) hnode (by rw [hkey, heq])
    obtain ⟨hmem, hp⟩ := findIn_spec hn
    exact ⟨n, hn, honly _ hmem hp⟩

/-- In the map with no other key there is nothing else to find. -/
theorem coherent_of_foundWhenEqual {a : List UInt8} {b : Str} (h : FoundWhenEqual a b) :
    Coherent (.string a) b := by
  intro combine hk
  have heq : stringEqual a b = true := Option.some.inj hk
  obtain ⟨s, hs⟩ : ∃ s : Elements (List UInt8) Unit, s = ⟨fun _ => (a, ()), 1⟩ := ⟨_, rfl⟩
  have hkey : ∀ n, (s.elem n).1 = a := fun n => by rw [hs]
  have hhashed : Hashed combine s [(hashRange combine a, 0)] := by
    intro e he
    rw [List.mem_singleton.mp he, hkey]
  obtain ⟨n, hn, -⟩ := (h combine Unit s _ hhashed ⟨_, List.mem_singleton_self _, hkey 0⟩
    fun e _ _ => hkey e.2).mpr heq
  obtain ⟨hmem, -⟩ := findIn_spec hn
  exact (congrArg Prod.fst (List.mem_singleton.mp hmem)).symm

/-- **Equal strings have equal hashes, and are found by each other**, but for a
`std::string` that goes on behind the NUL that ends the other one. -/
theorem coherent_iff_not_truncated (a b : Str) (stored : List UInt8) :
    (Coherent a b ↔ ¬Truncated a b) ∧ (FoundWhenEqual stored b ↔ ¬Truncated (.string stored) b) := by
  refine ⟨coherent_iff a b, fun h => ?_, fun h => ?_⟩
  · exact (coherent_iff _ b).mp (coherent_of_foundWhenEqual h)
  · exact foundWhenEqual_of_coherent ((coherent_iff _ b).mpr h)

/-- `ab`, a NUL, `cd`. -/
def abNulCd : List UInt8 := [97, 98, 0, 99, 100]

/-- `ab`. -/
def ab : CString := ⟨[97, 98], by decide⟩

def mix (seed : UInt64) (c : UInt8) : UInt64 := 31 * seed + c.toUInt64

theorem equal_of_different_hash : keyEqual (.string abNulCd) (.cString ab) = some true ∧
    hash mix (.string abNulCd) ≠ hash mix (.cString ab) ∧
    find mix (⟨fun _ => (abNulCd, ()), 1⟩ : Elements (List UInt8) Unit) [(hashRange mix abNulCd, 0)]
      (.cString ab) = none := by
  decide +kernel

end StringHasher
