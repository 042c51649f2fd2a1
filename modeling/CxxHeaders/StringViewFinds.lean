/-
`find` and `rfind` from where they begin if no position is given. For a view and
for a C string `rfind` then begins at 0, as `find` does, and so it sees no more
than an occurrence there (`finds_agree_iff`).
-/
import CxxHeaders.StringViewSearch

open Outcome

namespace BasicStringView

variable {CharT : Type} [BEq CharT] {v : BasicStringView CharT} {needle : List CharT} {S : Nat → Prop}
  {f r : SizeType}

/-- What is expected of the positions that the two searches for the needle
return. -/
structure Agrees (v : BasicStringView CharT) (needle : List CharT) (f r : SizeType) : Prop where
  npos : r = npos ↔ f = npos
  le : f ≠ BasicStringView.npos → r ≠ BasicStringView.npos → f ≤ r
  last : Last (v.Occurs needle) r
  char : ∀ c, needle = [c] → v.rfindChar c rfindCharPos = .next r

def Agree (v : BasicStringView CharT) (needle : List CharT) (find rfind : Outcome SizeType) : Prop :=
  ∃ f r, find = .next f ∧ rfind = .next r ∧ Agrees v needle f r

/-- The needle is nowhere else than at the beginning. -/
def OnlyInFront (v : BasicStringView CharT) (needle : List CharT) : Prop :=
  ∀ i, 0 < i → ¬v.Occurs needle i

/-! ## Occurrences of one character -/

theorem occurs_singleton (c : CharT) (i : Nat) : v.Occurs [c] i ↔ v.holds (· == c) i := by
  rw [Occurs, holds, List.length_singleton]
  by_cases hlt : i < v.chars.length
  · rw [List.drop_eq_getElem_cons hlt, List.getElem?_eq_getElem hlt, List.take_succ_cons, List.take_zero]
    exact ⟨fun h => by simpa [List.isEqv] using h.2, fun h => ⟨hlt, by simpa [List.isEqv] using h⟩⟩
  · rw [List.getElem?_eq_none (by omega)]
    exact ⟨fun h => absurd h.1 (by omega), fun h => by cases h⟩

theorem Last.unique {r' : SizeType} (h : Last S r) (h' : Last S r') : r = r' := by
  rcases h with ⟨hr, hall⟩ | ⟨rfl, hnone⟩
  · rcases h' with ⟨hr', hall'⟩ | ⟨-, hnone⟩
    · exact BitVec.eq_of_toNat_eq (Nat.le_antisymm (hall' _ hr) (hall _ hr'))
    · exact absurd hr (hnone _)
  · rcases h' with ⟨hr', -⟩ | ⟨rfl, -⟩
    · exact absurd hr' (hnone _)
    · rfl

/-- From the last position on, `rfind` of a character sees every one. -/
theorem rfindChar_last (c : CharT) : (v.rfindChar c rfindCharPos).Returns (Last (v.Occurs [c])) := by
  refine (backward_returns (eq_tests c) rfindCharPos).mono fun r hr => hr.congr fun j => ?_
  rw [occurs_singleton]
  refine and_iff_right_of_imp fun hj => ?_
  have hlt := lt_of_holds hj
  have hlen := v.length_lt
  have hnpos : (rfindCharPos : SizeType).toNat = 2 ^ 64 - 1 := rfl
  omega

/-! ## The two searches -/

/-- Where something is only at the beginning, both searches see it there. -/
theorem agrees_of_front (hfirst : First (v.Occurs needle) f)
    (hlast : Last (fun i => i ≤ 0 ∧ v.Occurs needle i) r) (h : OnlyInFront v needle) :
    Agrees v needle f r := by
  have hzero : ∀ i, v.Occurs needle i → i = 0 := fun i hi =>
    Nat.eq_zero_of_not_pos fun hpos => h i hpos hi
  have hlast : Last (v.Occurs needle) r := hlast.congr fun j =>
    ⟨And.right, fun hj => ⟨Nat.le_of_eq (hzero j hj), hj⟩⟩
  have hsame : f = r := by
    rcases hfirst with ⟨hf, -⟩ | ⟨rfl, hnone⟩
    · rcases hlast with ⟨hr, -⟩ | ⟨-, hnone⟩
      · exact BitVec.eq_of_toNat_eq ((hzero _ hf).trans (hzero _ hr).symm)
      · exact absurd hf (hnone _)
    · rcases hlast with ⟨hr, -⟩ | ⟨rfl, -⟩
      · exact absurd hr (hnone _)
      · rfl
  refine ⟨by rw [hsame], fun _ _ => hsame ▸ BitVec.le_refl f, hlast, ?_⟩
  rintro c rfl
  obtain ⟨r', hr', hlast'⟩ := (rfindChar_last c).exists
  rw [hr', hlast'.unique hlast]

/-- An index that is `npos` leaves no room for a character behind it. -/
theorem occurs_npos {i : Nat} (h : v.Occurs needle (npos : SizeType).toNat) (hi : i ≤ v.chars.length) :
    v.Occurs needle i := by
  have hlen := v.length_lt
  have hnpos : (npos : SizeType).toNat = 2 ^ 64 - 1 := rfl
  have hroom := h.1
  have hnil : needle = [] := List.length_eq_zero_iff.mp (by omega)
  subst hnil
  exact (occurs_nil i).mpr hi

theorem front_of_last (hlast : Last (v.Occurs needle) r)
    (hseen : Last (fun i => i ≤ 0 ∧ v.Occurs needle i) r) : OnlyInFront v needle := by
  intro i hi hoccurs
  rcases hlast with ⟨hr, hall⟩ | ⟨-, hnone⟩
  · rcases hseen with ⟨hseen, -⟩ | ⟨rfl, hnone⟩
    · have hle := hall i hoccurs
      omega
    · exact hnone 0 ⟨Nat.le_refl 0, occurs_npos hr (Nat.zero_le _)⟩
  · exact hnone i hoccurs

theorem agree_iff {str : List CharT} {count : SizeType} (hcount : count.toNat ≤ str.length)
    (hneedle : str.take count.toNat = needle) :
    Agree v needle (v.find str findPos count) (v.rfind str rfindPos count) ↔ OnlyInFront v needle := by
  obtain ⟨f, hf, hfirst⟩ := (find_returns (v := v) hcount findPos).exists
  obtain ⟨r, hr, hlast⟩ := (rfind_returns (v := v) hcount rfindPos).exists
  rw [hneedle] at hfirst hlast
  have hfirst : First (v.Occurs needle) f := hfirst.congr fun j => and_iff_right (Nat.zero_le j)
  constructor
  · intro ⟨f', r', hf', hr', h⟩
    rw [hr] at hr'
    cases hr'
    exact front_of_last h.last hlast
  · intro h
    exact ⟨f, r, hf, hr, agrees_of_front hfirst hlast h⟩

/-- **`find` and `rfind` agree exactly if** the needle is in the view at most at
its beginning. -/
theorem finds_agree_iff [Zero CharT] (v : BasicStringView CharT) :
    (∀ x : BasicStringView CharT,
      Agree v x.chars (v.findView x findPos) (v.rfindView x rfindPos) ↔ OnlyInFront v x.chars) ∧
    ∀ s : Traits.CString CharT,
      Agree v s.chars (v.findCStr s.memory findPos) (v.rfindCStr s.memory rfindPos) ↔
        OnlyInFront v s.chars := by
  constructor
  · intro x
    have hsize := toNat_size x
    exact agree_iff (Nat.le_of_eq hsize) (by rw [hsize, List.take_length])
  · intro s
    obtain ⟨n, hn, hend⟩ := Traits.length_memory s
    have hlt := s.end_lt
    simp only [findCStr, rfindCStr, hn, next_bind]
    exact agree_iff (by omega) (by rw [hend]; rfl)

/-- "ab". -/
def ab : BasicStringView Char := ⟨['a', 'b'], by decide⟩

/-- "b" is found in "ab" from the left, and not from the right. -/
theorem finds_disagree :
    ¬∀ v x : BasicStringView Char, Agree v x.chars (v.findView x findPos) (v.rfindView x rfindPos) := by
  intro h
  obtain ⟨f, r, hf, hr, hagrees⟩ := h ab ⟨['b'], by decide⟩
  have hone : ab.findView ⟨['b'], by decide⟩ findPos = .next 1 := by decide
  have hnone : ab.rfindView ⟨['b'], by decide⟩ rfindPos = .next npos := by decide
  rw [hone] at hf
  rw [hnone] at hr
  cases hf
  cases hr
  exact absurd (hagrees.npos.mp rfl) (by decide)

end BasicStringView
