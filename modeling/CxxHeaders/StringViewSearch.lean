/-
Every search of a view finds what it is to find, the least index or the greatest
one, and looks at nothing outside of the view (`searches`). A test is known by
the characters that pass it (`Tests`), so that the loops need one lemma each.
-/
import CxxHeaders.StringView

open Outcome IndexLoop

namespace Traits

variable {CharT : Type} [BEq CharT] [Zero CharT]

/-- Memory with a NUL in it. -/
structure CString (CharT : Type) [BEq CharT] [Zero CharT] where
  memory : List CharT
  terminated : ∃ c ∈ memory, (c == 0) = true
  length_lt : memory.length < 2 ^ 64

/-- Where the first NUL is. -/
def CString.end (s : CString CharT) : Nat := s.memory.findIdx (· == 0)

/-- The characters in front of it. -/
def CString.chars (s : CString CharT) : List CharT := s.memory.take s.end

theorem CString.end_lt (s : CString CharT) : s.end < s.memory.length := List.findIdx_lt_length.mpr s.terminated

theorem length_memory (s : CString CharT) :
    ∃ n, Traits.length s.memory = .next n ∧ n.toNat = s.end := by
  have hlt := s.end_lt
  have hsome : s.memory.findIdx? (· == 0) = some s.end :=
    List.findIdx?_eq_some_iff_findIdx_eq.mpr ⟨hlt, rfl⟩
  refine ⟨BitVec.ofNat 64 s.end, by rw [Traits.length, hsome]; rfl, ?_⟩
  rw [BitVec.toNat_ofNat, Nat.mod_eq_of_lt (Nat.lt_trans hlt s.length_lt)]

end Traits

namespace BasicStringView

variable {CharT : Type} {v : BasicStringView CharT}

/-! ## What a search returns -/

/-- The least index there is, or `npos`. -/
def First (S : Nat → Prop) (r : SizeType) : Prop :=
  (S r.toNat ∧ ∀ j, S j → r.toNat ≤ j) ∨ r = npos ∧ ∀ j, ¬S j

/-- The greatest index there is, or `npos`. -/
def Last (S : Nat → Prop) (r : SizeType) : Prop :=
  (S r.toNat ∧ ∀ j, S j → j ≤ r.toNat) ∨ r = npos ∧ ∀ j, ¬S j

variable {S T : Nat → Prop} {found : Option SizeType}

theorem first_getD (h : Least S found) : First S (found.getD npos) := by
  cases found with
  | none => exact .inr ⟨rfl, h⟩
  | some i => exact .inl h

theorem last_getD (h : Greatest S found) : Last S (found.getD npos) := by
  cases found with
  | none => exact .inr ⟨rfl, h⟩
  | some i => exact .inl h

theorem First.congr {r : SizeType} (h : First S r) (hst : ∀ j, S j ↔ T j) : First T r := by
  have heq : S = T := funext fun j => propext (hst j)
  exact heq ▸ h

theorem Last.congr {r : SizeType} (h : Last S r) (hst : ∀ j, S j ↔ T j) : Last T r := by
  have heq : S = T := funext fun j => propext (hst j)
  exact heq ▸ h

/-! ## Characters -/

/-- There is a character at the index, and it passes the test. -/
def holds (v : BasicStringView CharT) (q : CharT → Bool) (j : Nat) : Bool := v.chars[j]?.any q

theorem toNat_size (v : BasicStringView CharT) : v.size.toNat = v.chars.length := by
  rw [size, BitVec.toNat_ofNat, Nat.mod_eq_of_lt v.length_lt]

theorem toNat_size_sub {n : SizeType} (h : n ≤ v.size) :
    (v.size - n).toNat = v.chars.length - n.toNat := by
  rw [BitVec.toNat_sub_of_le h, toNat_size]

theorem lt_size {i : SizeType} : i < v.size ↔ i.toNat < v.chars.length := by
  rw [BitVec.lt_def, toNat_size]

theorem lt_of_holds {q : CharT → Bool} {j : Nat} (h : v.holds q j) : j < v.chars.length := by
  by_contra hge
  rw [holds, List.getElem?_eq_none (by omega)] at h
  cases h

theorem get_eq {i : SizeType} (h : i < v.size) :
    ∃ c, v.chars[i.toNat]? = some c ∧ v.get i = .next c := by
  have hget := List.getElem?_eq_getElem (lt_size.mp h)
  exact ⟨_, hget, by rw [get, hget]; rfl⟩

/-- An index from the pointer, as one of the view. -/
theorem start_any (q : CharT → Bool) (i : SizeType) (j : Nat) :
    (v.start i)[j]?.any q = v.holds q (i.toNat + j) := by
  rw [start, List.getElem?_drop, holds]

/-- The test looks at the character at the index, if there is one. -/
def Tests (v : BasicStringView CharT) (test : SizeType → Outcome Bool) (q : CharT → Bool) : Prop :=
  ∀ i, i < v.size → test i = .next (v.holds q i.toNat)

theorem Tests.negated {test : SizeType → Outcome Bool} {q : CharT → Bool} (h : v.Tests test q) :
    v.Tests (negated test) (!q ·) := by
  intro i hi
  obtain ⟨c, hc, -⟩ := get_eq hi
  rw [BasicStringView.negated, h i hi, holds, holds, hc]
  rfl

/-! ## The loops -/

variable {test : SizeType → Outcome Bool} {q : CharT → Bool}

theorem below_least (h : v.Tests test q) (pos : SizeType) :
    (below test v.size v.fuel pos).Returns (Least fun j => pos.toNat ≤ j ∧ v.holds q j) := by
  have hfuel : v.size.toNat - pos.toNat < v.fuel := by
    rw [toNat_size, fuel]
    omega
  refine (below_returns v.fuel (fun j _ hj => h j hj) hfuel).mono fun r hr => hr.congr fun j => ?_
  rw [toNat_size]
  exact and_congr_right fun _ => ⟨And.right, fun hj => ⟨lt_of_holds hj, hj⟩⟩

theorem forward_returns (h : v.Tests test q) (pos : SizeType) :
    (v.forward test pos).Returns (First fun j => pos.toNat ≤ j ∧ v.holds q j) := by
  simp only [forward, returns_bind]
  exact (below_least h pos).mono fun _ => first_getD

theorem under_greatest (h : v.Tests test q) {i : SizeType} (hi : i.toNat ≤ v.chars.length) :
    (under test v.fuel i).Returns (Greatest fun j => j < i.toNat ∧ v.holds q j) := by
  have hfuel : i.toNat < v.fuel := by
    rw [fuel]
    omega
  refine under_returns v.fuel (fun j hj => h j (lt_size.mpr ?_)) hfuel
  rw [BitVec.lt_def] at hj
  omega

/-- It begins behind the last index that is in the view, and not behind `pos`. -/
theorem toNat_stdMin_add_one (hne : v.size ≠ 0) (pos : SizeType) :
    (stdMin (v.size - 1) pos + 1).toNat = min (v.chars.length - 1) pos.toNat + 1 := by
  have hpos := toNat_ne_zero hne
  have hpred := toNat_sub_one hne
  have hlen := v.length_lt
  rw [toNat_size] at hpos hpred
  have hmin : (stdMin (v.size - 1) pos).toNat = min (v.chars.length - 1) pos.toNat := by
    unfold stdMin
    split
    · next hlt =>
      rw [BitVec.lt_def, hpred] at hlt
      exact (Nat.min_eq_right (Nat.le_of_lt hlt)).symm
    · next hge =>
      rw [BitVec.lt_def, hpred, Nat.not_lt] at hge
      rw [hpred]
      exact (Nat.min_eq_left hge).symm
  rw [toNat_add_one (by rw [hmin]; omega), hmin]

theorem backward_returns (h : v.Tests test q) (pos : SizeType) :
    (v.backward test pos).Returns (Last fun j => j ≤ pos.toNat ∧ v.holds q j) := by
  unfold backward
  dsimp only
  split
  · next hne =>
    have hmin := toNat_stdMin_add_one hne pos
    have hpos := toNat_ne_zero hne
    rw [toNat_size] at hpos
    have hloop := under_greatest h (i := stdMin (v.size - 1) pos + 1) (by omega)
    rw [returns_bind]
    refine hloop.mono fun r hr => ?_
    rw [pure_eq, returns_next]
    refine last_getD (hr.congr fun j => and_congr_left fun hj => ?_)
    have hlt := lt_of_holds hj
    omega
  · next hzero =>
    refine .inr ⟨rfl, fun j hj => ?_⟩
    have hlt := lt_of_holds hj.2
    rw [← toNat_size, not_not.mp hzero] at hlt
    cases hlt

/-! ## The tests -/

variable [BEq CharT] {str : List CharT} {count : SizeType}

theorem eq_tests (c : CharT) : v.Tests (v.eq c) (· == c) := by
  intro i hi
  obtain ⟨d, hd, hget⟩ := get_eq hi
  rw [eq, hget, holds, hd]
  rfl

theorem isIn_tests (hcount : count.toNat ≤ str.length) :
    v.Tests (v.isIn str count) fun c => (str.take count.toNat).any (· == c) := by
  intro i hi
  obtain ⟨d, hd, hget⟩ := get_eq hi
  rw [isIn, hget, holds, hd, next_bind, Traits.find, asserting_true hcount, next_bind, pure_eq, next_bind,
    List.findIdx?_isSome]
  rfl

/-! ## Occurrences -/

/-- The needle is in the view, from the index on. -/
def Occurs (v : BasicStringView CharT) (needle : List CharT) (i : Nat) : Prop :=
  i + needle.length ≤ v.chars.length ∧
    ((v.chars.drop i).take needle.length).isEqv needle (· == ·) = true

/-- What is compared at an index. -/
def matchesAt (v : BasicStringView CharT) (str : List CharT) (count : SizeType) (i : Nat) : Bool :=
  ((v.chars.drop i).take count.toNat).isEqv (str.take count.toNat) (· == ·)

theorem same_returns (hcount : count.toNat ≤ str.length) {pos : SizeType}
    (hpos : pos.toNat + count.toNat ≤ v.chars.length) :
    Traits.same (v.start pos) str count = .next (v.matchesAt str count pos.toNat) := by
  have hlen : count.toNat ≤ (v.start pos).length := by
    rw [start, List.length_drop]
    omega
  rw [Traits.same, asserting_true ⟨hlen, hcount⟩, next_bind]
  rfl

theorem occurs_take (hcount : count.toNat ≤ str.length) (i : Nat) :
    v.Occurs (str.take count.toNat) i ↔
      i + count.toNat ≤ v.chars.length ∧ v.matchesAt str count i = true := by
  rw [Occurs, List.length_take, Nat.min_eq_left hcount, matchesAt]

theorem occurs_nil (i : Nat) : v.Occurs [] i ↔ i ≤ v.chars.length := by
  rw [Occurs, List.length_nil, List.take_zero, Nat.add_zero]
  exact and_iff_left rfl

theorem not_occurs (hcount : count.toNat ≤ str.length) (h : ¬count ≤ v.size) (i : Nat) :
    ¬v.Occurs (str.take count.toNat) i := by
  rw [BitVec.le_def, toNat_size] at h
  rw [occurs_take hcount]
  omega

theorem find_empty (pos : SizeType) :
    First (fun i => pos.toNat ≤ i ∧ v.Occurs [] i) (if pos ≤ v.size then pos else npos) := by
  split
  · next hle =>
    rw [BitVec.le_def, toNat_size] at hle
    exact .inl ⟨⟨Nat.le_refl _, (occurs_nil _).mpr hle⟩, fun j hj => hj.1⟩
  · next hgt =>
    rw [BitVec.le_def, toNat_size] at hgt
    refine .inr ⟨rfl, fun j hj => ?_⟩
    have hle := (occurs_nil j).mp hj.2
    omega

theorem find_returns (hcount : count.toNat ≤ str.length) (pos : SizeType) :
    (v.find str pos count).Returns
      (First fun i => pos.toNat ≤ i ∧ v.Occurs (str.take count.toNat) i) := by
  unfold find
  split
  · next hzero =>
    have hzero : count.toNat = 0 := by simpa [BitVec.le_def] using hzero
    rw [pure_eq, returns_next, hzero, List.take_zero]
    exact find_empty pos
  · next hne =>
    have hpos : 0 < count.toNat := by simpa [BitVec.le_def, Nat.pos_iff_ne_zero] using hne
    split
    · next hle =>
      have hbound := toNat_size_sub hle
      have hlen := v.length_lt
      rw [BitVec.le_def, toNat_size] at hle
      rw [returns_bind]
      refine (through_returns (p := v.matchesAt str count) v.fuel ?_ ?_ ?_).mono fun r hr => ?_
      · omega
      · intro j _ hj
        rw [BitVec.le_def] at hj
        exact same_returns hcount (by omega)
      · rw [fuel]
        omega
      rw [pure_eq, returns_next]
      refine first_getD (hr.congr fun j => and_congr_right fun _ => ?_)
      rw [occurs_take hcount]
      exact and_congr_left fun _ => by omega
    · next hgt => exact .inr ⟨rfl, fun j hj => not_occurs hcount hgt j hj.2⟩

theorem rfind_returns (hcount : count.toNat ≤ str.length) (pos : SizeType) :
    (v.rfind str pos count).Returns
      (Last fun i => i ≤ pos.toNat ∧ v.Occurs (str.take count.toNat) i) := by
  unfold rfind
  dsimp only
  split
  · next hle =>
    have hbound := toNat_size_sub hle
    rw [BitVec.le_def, toNat_size] at hle
    have hpos : (if v.size - count < pos then v.size - count else pos).toNat =
        min pos.toNat (v.chars.length - count.toNat) := by
      split
      · next hlt =>
        rw [BitVec.lt_def, hbound] at hlt
        rw [hbound, Nat.min_eq_right (Nat.le_of_lt hlt)]
      · next hge =>
        rw [BitVec.lt_def, hbound, Nat.not_lt] at hge
        rw [Nat.min_eq_left hge]
    rw [returns_bind]
    refine (downTo_returns (p := v.matchesAt str count) v.fuel ?_ ?_).mono fun r hr => ?_
    · intro j hj
      rw [BitVec.le_def, hpos] at hj
      exact same_returns hcount (by omega)
    · rw [hpos, fuel]
      omega
    rw [pure_eq, returns_next]
    refine last_getD (hr.congr fun j => ?_)
    rw [hpos, occurs_take hcount, ← and_assoc]
    exact and_congr_left fun _ => by omega
  · next hgt => exact .inr ⟨rfl, fun j hj => not_occurs hcount hgt j hj.2⟩

/-! ## A character -/

theorem findChar_returns (c : CharT) (pos : SizeType) :
    (v.findChar c pos).Returns (First fun j => pos.toNat ≤ j ∧ v.holds (· == c) j) := by
  unfold findChar
  split
  · next hlt =>
    have hsub := toNat_size_sub (BitVec.le_of_lt hlt)
    have hlen := v.length_lt
    have hpos := lt_size.mp hlt
    have hcount : (v.size - pos).toNat = (v.start pos).length := by
      rw [hsub, start, List.length_drop]
    rw [Traits.find, hcount, asserting_true (Nat.le_refl _), next_bind, List.take_length, pure_eq, next_bind]
    cases hfound : (v.start pos).findIdx? (· == c) with
    | none =>
      rw [List.findIdx?_eq_none_iff] at hfound
      refine .inr ⟨rfl, fun j hj => ?_⟩
      obtain ⟨k, rfl⟩ := Nat.exists_eq_add_of_le hj.1
      obtain ⟨x, hx, hxc⟩ := (Option.any_eq_true _ _).mp ((start_any _ pos k).trans hj.2)
      have hne := hfound x (List.mem_of_getElem? hx)
      rw [hne] at hxc
      cases hxc
    | some p =>
      rw [List.findIdx?_eq_some_iff_getElem] at hfound
      obtain ⟨hp, heq, hleast⟩ := hfound
      have hadd : (pos + BitVec.ofNat 64 p).toNat = pos.toNat + p := by
        rw [BitVec.toNat_add, BitVec.toNat_ofNat, Nat.add_mod_mod, Nat.mod_eq_of_lt (by omega)]
      have hthere : v.holds (· == c) (pos.toNat + p) := by
        rw [← start_any, List.getElem?_eq_getElem hp]
        exact heq
      refine .inl ⟨hadd ▸ ⟨Nat.le_add_right .., hthere⟩, fun j hj => ?_⟩
      obtain ⟨k, rfl⟩ := Nat.exists_eq_add_of_le hj.1
      obtain ⟨x, hx, hxc⟩ := (Option.any_eq_true _ _).mp ((start_any _ pos k).trans hj.2)
      obtain ⟨hk, rfl⟩ := List.getElem?_eq_some_iff.mp hx
      have hle : ¬k < p := fun hkp => hleast k hkp hxc
      omega
  · next hge =>
    rw [lt_size] at hge
    refine .inr ⟨rfl, fun j hj => ?_⟩
    have hlt := lt_of_holds hj.2
    omega

/-! ## Everything -/

/-- What the searches from a position return, whatever they are given to search
for. -/
structure Searches (v : BasicStringView CharT) (pos : SizeType) : Prop where
  findChar : ∀ c, (v.findChar c pos).Returns (First fun i => pos.toNat ≤ i ∧ v.holds (· == c) i)
  rfindChar : ∀ c, (v.rfindChar c pos).Returns (Last fun i => i ≤ pos.toNat ∧ v.holds (· == c) i)
  findFirstOfChar : ∀ c,
    (v.findFirstOfChar c pos).Returns (First fun i => pos.toNat ≤ i ∧ v.holds (· == c) i)
  findFirstNotOfChar : ∀ c,
    (v.findFirstNotOfChar c pos).Returns (First fun i => pos.toNat ≤ i ∧ v.holds (!· == c) i)
  findLastOfChar : ∀ c,
    (v.findLastOfChar c pos).Returns (Last fun i => i ≤ pos.toNat ∧ v.holds (· == c) i)
  findLastNotOfChar : ∀ c,
    (v.findLastNotOfChar c pos).Returns (Last fun i => i ≤ pos.toNat ∧ v.holds (!· == c) i)
  find : ∀ (str : List CharT) (count : SizeType), count.toNat ≤ str.length →
    (v.find str pos count).Returns (First fun i => pos.toNat ≤ i ∧ v.Occurs (str.take count.toNat) i)
  rfind : ∀ (str : List CharT) (count : SizeType), count.toNat ≤ str.length →
    (v.rfind str pos count).Returns (Last fun i => i ≤ pos.toNat ∧ v.Occurs (str.take count.toNat) i)
  findFirstOf : ∀ (str : List CharT) (count : SizeType), count.toNat ≤ str.length →
    (v.findFirstOf str pos count).Returns
      (First fun i => pos.toNat ≤ i ∧ v.holds (fun c => (str.take count.toNat).any (· == c)) i)
  findFirstNotOf : ∀ (str : List CharT) (count : SizeType), count.toNat ≤ str.length →
    (v.findFirstNotOf str pos count).Returns
      (First fun i => pos.toNat ≤ i ∧ v.holds (fun c => !(str.take count.toNat).any (· == c)) i)
  findLastOf : ∀ (str : List CharT) (count : SizeType), count.toNat ≤ str.length →
    (v.findLastOf str pos count).Returns
      (Last fun i => i ≤ pos.toNat ∧ v.holds (fun c => (str.take count.toNat).any (· == c)) i)
  findLastNotOf : ∀ (str : List CharT) (count : SizeType), count.toNat ≤ str.length →
    (v.findLastNotOf str pos count).Returns
      (Last fun i => i ≤ pos.toNat ∧ v.holds (fun c => !(str.take count.toNat).any (· == c)) i)

/-- **Every search returns** the least index, or the greatest one, at which there
is what it searches for, or `npos`. -/
theorem searches (v : BasicStringView CharT) (pos : SizeType) : Searches v pos where
  findChar c := findChar_returns c pos
  rfindChar c := backward_returns (eq_tests c) pos
  findFirstOfChar c := findChar_returns c pos
  findFirstNotOfChar c := forward_returns (eq_tests c).negated pos
  findLastOfChar c := backward_returns (eq_tests c) pos
  findLastNotOfChar c := backward_returns (eq_tests c).negated pos
  find _ _ hcount := find_returns hcount pos
  rfind _ _ hcount := rfind_returns hcount pos
  findFirstOf _ _ hcount := forward_returns (isIn_tests hcount) pos
  findFirstNotOf _ _ hcount := forward_returns (isIn_tests hcount).negated pos
  findLastOf _ _ hcount := backward_returns (isIn_tests hcount) pos
  findLastNotOf _ _ hcount := backward_returns (isIn_tests hcount).negated pos

/-- "abab", and "ba" is behind its first character and nowhere else. -/
def abab : BasicStringView Char := ⟨['a', 'b', 'a', 'b'], by decide⟩

theorem searches_abab : abab.find ['b', 'a'] 1 2 = .next 1 ∧
    First (fun i => 1 ≤ i ∧ abab.Occurs ['b', 'a'] i) 1 ∧ abab.rfind ['b', 'a'] 3 2 = .next 1 ∧
    Last (fun i => i ≤ 3 ∧ abab.Occurs ['b', 'a'] i) 1 := by
  have hfind : abab.find ['b', 'a'] 1 2 = .next 1 := by decide
  have hrfind : abab.rfind ['b', 'a'] 3 2 = .next 1 := by decide
  have hfirst := (searches abab 1).find ['b', 'a'] 2 (by decide)
  have hlast := (searches abab 3).rfind ['b', 'a'] 2 (by decide)
  rw [hfind] at hfirst
  rw [hrfind] at hlast
  exact ⟨hfind, hfirst, hrfind, hlast⟩

end BasicStringView
