/-
Lists in the order of a key and, among equal keys, of the moment at which the
elements came (`Before`). A new element is put behind all those that its key is
not less than.
-/
import Mathlib.Data.List.Sort
import Mathlib.Order.Lattice

namespace StableInsert

variable {α τ : Type*} [LinearOrder τ] {key : α → τ} {stamp : α → Nat}

def insert (key : α → τ) (a : α) (l : List α) : List α := l.orderedInsert (fun a b => key a < key b) a

/-- The key is less, or they are equal and `a` came first. -/
def Before (key : α → τ) (stamp : α → Nat) (a b : α) : Prop :=
  key a < key b ∨ (key a = key b ∧ stamp a < stamp b)

theorem Before.le {a b : α} (h : Before key stamp a b) : key a ≤ key b := by
  rcases h with hlt | ⟨heq, -⟩
  · exact hlt.le
  · exact heq.le

theorem Before.ne {a b : α} (h : Before key stamp a b) : a ≠ b := by
  rintro rfl
  rcases h with hlt | ⟨-, hlt⟩
  · exact lt_irrefl _ hlt
  · exact Nat.lt_irrefl _ hlt

theorem mem_insert {a b : α} {l : List α} : b ∈ insert key a l ↔ b = a ∨ b ∈ l :=
  List.mem_orderedInsert _

/-- What is new comes last among its equals. -/
theorem pairwise_insert {a : α} {l : List α} (h : l.Pairwise (Before key stamp))
    (hnew : ∀ b ∈ l, stamp b < stamp a) : (insert key a l).Pairwise (Before key stamp) := by
  induction l with
  | nil => exact List.pairwise_singleton _ _
  | cons b l ih =>
    obtain ⟨hb, hl⟩ := List.pairwise_cons.mp h
    unfold insert
    rw [List.orderedInsert_cons]
    split
    next hlt =>
      refine List.pairwise_cons.mpr ⟨fun x hx => .inl ?_, h⟩
      rcases List.mem_cons.mp hx with rfl | hx
      · exact hlt
      · exact lt_of_lt_of_le hlt (hb x hx).le
    next hge =>
      have hrest := ih hl fun x hx => hnew x (List.mem_cons_of_mem b hx)
      refine List.pairwise_cons.mpr ⟨fun x hx => ?_, hrest⟩
      rcases mem_insert.mp hx with rfl | hx
      · rcases lt_or_eq_of_le (not_lt.mp hge) with hlt | heq
        · exact .inl hlt
        · exact .inr ⟨heq, hnew b List.mem_cons_self⟩
      · exact hb x hx

/-- Keys and stamps of other elements may change. -/
theorem pairwise_congr {key' : α → τ} {stamp' : α → Nat} {l : List α} (h : l.Pairwise (Before key stamp))
    (hkey : ∀ a ∈ l, key' a = key a) (hstamp : ∀ a ∈ l, stamp' a = stamp a) :
    l.Pairwise (Before key' stamp') := by
  refine h.imp_of_mem fun ha hb hab => ?_
  unfold Before
  rw [hkey _ ha, hkey _ hb, hstamp _ ha, hstamp _ hb]
  exact hab

end StableInsert
