/-
When an integer literal is evaluated right (`literal_right_iff`).

Each constant is known from the digits: `value` and `rank` are right modulo
2^64 (`Evaluated`), so a digit is compared with what its place is worth modulo
2^64. Where that is too little the overflow is not noticed, and where it is 0
there is a division by 0.
-/
import CxxHeaders.IntegerLiterals
import Mathlib.Data.Nat.Digits.Lemmas
import Mathlib.Tactic.Ring

open Outcome

namespace IntegerLiterals

/-! ## Numbers -/

/-- The number with these digits, the highest first. -/
def number (b : Nat) (ds : List Nat) : Nat := Nat.ofDigits b ds.reverse

variable {b d m : Nat} {ds : List Nat}

theorem number_cons (b d : Nat) (ds : List Nat) : number b (d :: ds) = d * b ^ ds.length + number b ds := by
  rw [number, List.reverse_cons, Nat.ofDigits_append, Nat.ofDigits_singleton, List.length_reverse, number]
  ring

theorem number_lt (hb : 1 < b) (h : ∀ d ∈ ds, d < b) : number b ds < b ^ ds.length := by
  have hlt := Nat.ofDigits_lt_base_pow_length hb (l := ds.reverse) fun d hd => h d (List.mem_reverse.mp hd)
  rwa [List.length_reverse] at hlt

/-- What the highest of these places is worth, in 64 bits. -/
def rank (b : Nat) (ds : List Nat) : Nat := b ^ (ds.length - 1) % 2 ^ 64

/-- The digit in front of `ds` shows that the number is greater than `m`: it is
itself, or it is at its place, which is taken for the base times what the place
behind it is worth in 64 bits, unless that is 0. -/
def Shows (b m d : Nat) (ds : List Nat) : Prop :=
  m < d ∨ ds ≠ [] ∧ rank b ds ≠ 0 ∧ m < d * (rank b ds * b) + number b ds % 2 ^ 64

/-- The number reaches a place in front of one that is worth 0 in 64 bits. -/
def Stuck (b : Nat) (ds : List Nat) : Prop := ∃ j, 1 ≤ j ∧ 2 ^ 64 ∣ b ^ (j - 1) ∧ b ^ j ≤ number b ds

/-- Some digit shows it, before there is one at a place that is worth 0. -/
def Caught (b m : Nat) (ds : List Nat) : Prop :=
  ∃ hi d lo, ds = hi ++ d :: lo ∧ d ≠ 0 ∧ Shows b m d lo ∧ ¬Stuck b lo

theorem caught_cons : Caught b m (d :: ds) ↔ (d ≠ 0 ∧ Shows b m d ds ∧ ¬Stuck b ds) ∨ Caught b m ds := by
  constructor
  · rintro ⟨hi, e, lo, heq, h⟩
    cases hi with
    | nil =>
      cases heq
      exact .inl h
    | cons c hi =>
      cases heq
      exact .inr ⟨hi, e, lo, rfl, h⟩
  · rintro (h | ⟨hi, e, lo, rfl, h⟩)
    · exact ⟨[], d, ds, rfl, h⟩
    · exact ⟨d :: hi, e, lo, rfl, h⟩

theorem not_caught_nil : ¬Caught b m [] := by
  rintro ⟨hi, d, lo, heq, -⟩
  cases hi <;> cases heq

theorem not_stuck_nil (hb : 0 < b) : ¬Stuck b [] := by
  rintro ⟨j, -, -, hle⟩
  exact absurd hle (Nat.not_le.mpr (Nat.pow_pos hb))

theorem caught_one (hb : 0 < b) : Caught b m [d] ↔ m < d := by
  rw [caught_cons]
  constructor
  · rintro (⟨-, hlt | ⟨hne, -⟩, -⟩ | hnil)
    · exact hlt
    · exact absurd rfl hne
    · exact absurd hnil not_caught_nil
  · exact fun hlt => .inl ⟨by omega, .inl hlt, not_stuck_nil hb⟩

theorem Stuck.cons (h : Stuck b ds) (d : Nat) : Stuck b (d :: ds) := by
  obtain ⟨j, hj, hdvd, hle⟩ := h
  exact ⟨j, hj, hdvd, hle.trans (number_cons b d ds ▸ Nat.le_add_left _ _)⟩

theorem stuck_zero_cons : Stuck b (0 :: ds) ↔ Stuck b ds := by
  unfold Stuck
  rw [number_cons, Nat.zero_mul, Nat.zero_add]

theorem stuck_cons_iff (hb : 1 < b) (hds : ∀ d ∈ ds, d < b) (hd : d < b) (hd0 : d ≠ 0) (hne : ds ≠ []) :
    Stuck b (d :: ds) ↔ rank b ds = 0 := by
  have hlen : 0 < ds.length := List.length_pos_iff.mpr hne
  constructor
  · rintro ⟨j, hj, hdvd, hle⟩
    have hlt : number b (d :: ds) < b ^ (d :: ds).length :=
      number_lt hb (List.forall_mem_cons.mpr ⟨hd, hds⟩)
    have hjlen : j < ds.length + 1 := (Nat.pow_lt_pow_iff_right hb).mp (Nat.lt_of_le_of_lt hle hlt)
    exact Nat.mod_eq_zero_of_dvd (hdvd.trans (Nat.pow_dvd_pow b (by omega)))
  · intro hrank
    refine ⟨ds.length, hlen, Nat.dvd_of_mod_eq_zero hrank, ?_⟩
    rw [number_cons]
    exact (Nat.le_mul_of_pos_left _ (Nat.pos_of_ne_zero hd0)).trans (Nat.le_add_right _ _)

/-! ## Constants -/

namespace LiteralType

theorem base_bounds (T : LiteralType) : 1 < T.base.toNat ∧ T.base.toNat ≤ 16 := by cases T <;> decide

end LiteralType

theorem divide_eq {a c : UInt64} (hc : c ≠ 0) : divide a c = .next (a / c) := if_neg hc

/-- What the constants are, for these digits. -/
structure Evaluated (T : LiteralType) (max : UInt64) (ds : List Nat) (l : Constants) : Prop where
  base : l.base = T.base
  value : l.value.toNat = number T.base.toNat ds % 2 ^ 64
  rank : ds ≠ [] → l.rank.toNat = rank T.base.toNat ds
  overflow : (l.overflow = .next true ∧ Caught T.base.toNat max.toNat ds) ∨
    (¬Caught T.base.toNat max.toNat ds ∧
      (l.overflow = .failed ∧ Stuck T.base.toNat ds ∨ l.overflow = .next false ∧ ¬Stuck T.base.toNat ds))

variable {T : LiteralType} {max d : UInt64} {ds : List Nat} {tail : Constants}

theorem evaluated_lastDigit (hd : d.toNat < T.base.toNat) :
    Evaluated T max [d.toNat] (T.lastDigit max d) where
  base := rfl
  value := by
    simp [LiteralType.lastDigit, number]
  rank _ := rfl
  overflow := by
    have hb := T.base_bounds.1
    have hfree : ¬Stuck T.base.toNat [d.toNat] := by
      rintro ⟨j, hj, -, hle⟩
      have hpow := Nat.pow_le_pow_right (by omega : 0 < T.base.toNat) hj
      rw [number_cons] at hle
      simp [number] at hle hpow
      omega
    rw [caught_one (by omega), ← UInt64.lt_iff_toNat_lt]
    by_cases hlt : max < d
    · exact .inl ⟨by simp [LiteralType.lastDigit, hlt], hlt⟩
    · exact .inr ⟨hlt, .inr ⟨by simp [LiteralType.lastDigit, hlt], hfree⟩⟩

/-- What the head and the tail are compared with: where the comparison with the
place is passed, no product is cut off. -/
theorem overflow_step (hd0 : d ≠ 0) (hmax : ¬max < d) (hnext : tail.overflow = .next false) :
    (literalStep max (T.lastDigit max d) tail).overflow =
      if tail.rank = 0 then .failed
      else .next (max.toNat < d.toNat * (tail.rank.toNat * T.base.toNat) + tail.value.toNat) := by
  obtain ⟨hb, hb16⟩ := T.base_bounds
  have hbase : T.base ≠ 0 := fun he => by
    rw [he] at hb
    cases hb
  have hpos : 0 < d.toNat := Nat.pos_of_ne_zero fun he => hd0 (UInt64.toNat_inj.mp he)
  have hlt := max.toNat_lt
  have hhead : (T.lastDigit max d).overflow = .next false := by simp [LiteralType.lastDigit, hmax]
  have hplace : tail.rank > max / T.base ↔ max.toNat < tail.rank.toNat * T.base.toNat := by
    rw [gt_iff_lt, UInt64.lt_iff_toNat_lt, UInt64.toNat_div, Nat.div_lt_iff_lt_mul (by omega)]
  simp only [literalStep, hhead, hnext, next_bind]
  show (if d = 0 then _ else divide max T.base >>= _) = _
  rw [if_neg hd0, divide_eq hbase, next_bind]
  by_cases hsmall : tail.rank > max / T.base
  · have hgreat := hplace.mp hsmall
    have hrank : tail.rank ≠ 0 := fun he => by
      rw [he] at hgreat
      simp at hgreat
    have hshows : max.toNat < d.toNat * (tail.rank.toNat * T.base.toNat) + tail.value.toNat :=
      Nat.lt_of_lt_of_le hgreat ((Nat.le_mul_of_pos_left _ hpos).trans (Nat.le_add_right _ _))
    rw [if_pos hsmall, if_neg hrank, decide_eq_true hshows]
    rfl
  · have hfits : tail.rank.toNat * T.base.toNat ≤ max.toNat := Nat.not_lt.mp (mt hplace.mpr hsmall)
    have hprod : (tail.rank * T.base).toNat = tail.rank.toNat * T.base.toNat := by
      rw [UInt64.toNat_mul, Nat.mod_eq_of_lt (Nat.lt_of_le_of_lt hfits hlt)]
    rw [if_neg hsmall]
    show divide max (tail.rank * T.base) >>= _ = _
    by_cases hrank : tail.rank = 0
    · rw [if_pos hrank, hrank, UInt64.zero_mul]
      rfl
    · have hrpos : 0 < tail.rank.toNat := Nat.pos_of_ne_zero fun he => hrank (UInt64.toNat_inj.mp he)
      have hppos : 0 < tail.rank.toNat * T.base.toNat := Nat.mul_pos hrpos (by omega)
      have hp0 : tail.rank * T.base ≠ 0 := fun he => by
        rw [he] at hprod
        exact absurd hprod hppos.ne
      have hfirst : d > max / (tail.rank * T.base) ↔
          max.toNat < d.toNat * (tail.rank.toNat * T.base.toNat) := by
        rw [gt_iff_lt, UInt64.lt_iff_toNat_lt, UInt64.toNat_div, hprod, Nat.div_lt_iff_lt_mul hppos]
      rw [if_neg hrank, divide_eq hp0, next_bind]
      show (if d > max / (tail.rank * T.base) then _ else _) = _
      split
      · next hgreat =>
        rw [decide_eq_true (Nat.lt_of_lt_of_le (hfirst.mp hgreat) (Nat.le_add_right _ _))]
        rfl
      · next hrest =>
        have hle := Nat.not_lt.mp (mt hfirst.mpr hrest)
        have hdprod : (d * (tail.rank * T.base)).toNat = d.toNat * (tail.rank.toNat * T.base.toNat) := by
          rw [UInt64.toNat_mul, hprod, Nat.mod_eq_of_lt (Nat.lt_of_le_of_lt hle hlt)]
        have hsub : (max - d * (tail.rank * T.base)).toNat =
            max.toNat - d.toNat * (tail.rank.toNat * T.base.toNat) := by
          rw [UInt64.toNat_sub_of_le _ _ (UInt64.le_iff_toNat_le.mpr (hdprod ▸ hle)), hdprod]
        show Outcome.next (decide (max - d * (tail.rank * T.base) < tail.value)) = _
        refine congrArg Outcome.next (decide_eq_decide.mpr ?_)
        rw [UInt64.lt_iff_toNat_lt, hsub]
        omega

theorem evaluated_step (hds : ∀ e ∈ ds, e < T.base.toNat) (hd : d.toNat < T.base.toNat) (hne : ds ≠ [])
    (h : Evaluated T max ds tail) :
    Evaluated T max (d.toNat :: ds) (literalStep max (T.lastDigit max d) tail) := by
  obtain ⟨hb, -⟩ := T.base_bounds
  obtain ⟨hbase, hvalue, hrank, hoverflow⟩ := h
  obtain ⟨n, hn⟩ := Nat.exists_eq_succ_of_ne_zero (List.length_pos_iff.mpr hne).ne'
  have hplace : (tail.rank * T.base).toNat = T.base.toNat ^ ds.length % 2 ^ 64 := by
    rw [UInt64.toNat_mul, hrank hne, rank, hn, Nat.mod_mul_mod, Nat.succ_sub_one, ← Nat.pow_succ]
  refine ⟨rfl, ?_, fun _ => ?_, ?_⟩
  · show (d * (tail.rank * T.base) + tail.value).toNat = _
    rw [UInt64.toNat_add, UInt64.toNat_mul, hplace, hvalue, number_cons, Nat.mul_mod_mod, ← Nat.add_mod]
  · exact hplace
  · have hhead : (T.lastDigit max d).overflow = .next (decide (max < d)) := rfl
    rcases hoverflow with ⟨htrue, hcaught⟩ | ⟨hnot, ⟨hfail, hstuck⟩ | ⟨hfalse, hfree⟩⟩
    · refine .inl ⟨?_, caught_cons.mpr (.inr hcaught)⟩
      simp only [literalStep, hhead, htrue, next_bind, Bool.or_true, if_true]
      rfl
    · refine .inr ⟨fun hc => (caught_cons.mp hc).elim (fun hhere => hhere.2.2 hstuck) hnot,
        .inl ⟨?_, hstuck.cons _⟩⟩
      simp only [literalStep, hhead, hfail, next_bind, failed_bind]
    · by_cases hdmax : max < d
      · have hd0 : d.toNat ≠ 0 := (Nat.lt_of_le_of_lt (Nat.zero_le _) (UInt64.lt_iff_toNat_lt.mp hdmax)).ne'
        refine .inl ⟨?_, caught_cons.mpr (.inl ⟨hd0, .inl (UInt64.lt_iff_toNat_lt.mp hdmax), hfree⟩)⟩
        simp only [literalStep, hhead, hfalse, next_bind, hdmax, decide_true, Bool.true_or, if_true]
        rfl
      · by_cases hzero : d = 0
        · subst hzero
          refine .inr ⟨fun hc => (caught_cons.mp hc).elim (fun hhere => hhere.1 rfl) hnot,
            .inr ⟨?_, mt stuck_zero_cons.mp hfree⟩⟩
          simp only [literalStep, hhead, hfalse, next_bind, hdmax, decide_false, Bool.or_false,
            Bool.false_eq_true, if_false]
          rfl
        · have hd0 : d.toNat ≠ 0 := fun he => hzero (UInt64.toNat_inj.mp he)
          have hstuck := stuck_cons_iff hb hds hd hd0 hne
          have hmax : ¬max.toNat < d.toNat := mt UInt64.lt_iff_toNat_lt.mpr hdmax
          rw [overflow_step hzero hdmax hfalse]
          by_cases hr : tail.rank = 0
          · have hr' : rank T.base.toNat ds = 0 := by
              rw [← hrank hne, hr]
              rfl
            refine .inr ⟨fun hc => ?_, .inl ⟨if_pos hr, hstuck.mpr hr'⟩⟩
            rcases caught_cons.mp hc with ⟨-, hshows | ⟨-, hne0, -⟩, -⟩ | hc
            · exact hmax hshows
            · exact hne0 hr'
            · exact hnot hc
          · have hr' : rank T.base.toNat ds ≠ 0 := fun he =>
              hr (UInt64.toNat_inj.mp ((hrank hne).trans he))
            rw [if_neg hr, hrank hne, hvalue]
            by_cases hshows : max.toNat <
                d.toNat * (rank T.base.toNat ds * T.base.toNat) + number T.base.toNat ds % 2 ^ 64
            · exact .inl ⟨congrArg _ (decide_eq_true hshows),
                caught_cons.mpr (.inl ⟨hd0, .inr ⟨hne, hr', hshows⟩, hfree⟩)⟩
            · refine .inr ⟨fun hc => ?_, .inr ⟨congrArg _ (decide_eq_false hshows), mt hstuck.mp hr'⟩⟩
              rcases caught_cons.mp hc with ⟨-, hshows' | ⟨-, -, hshows'⟩, -⟩ | hc
              · exact hmax hshows'
              · exact hshows hshows'
              · exact hnot hc

/-! ## Literals -/

/-- The values of the characters. -/
def LiteralType.values (T : LiteralType) (cs : List Char) : List Nat :=
  cs.map fun c => ((T.digit c).getD 0).toNat

theorem digit_lt {c : Char} (h : T.digit c = some d) : d.toNat < T.base.toNat := by
  have hall : ∀ p ∈ T.literals, p.2.toNat < T.base.toNat := by cases T <;> decide
  obtain ⟨l₁, l₂, heq, -⟩ := List.lookup_eq_some_iff.mp h
  exact hall (c, d) (heq ▸ List.mem_append_right _ List.mem_cons_self)

theorem values_lt {cs : List Char} (h : T.areDigits cs = true) : ∀ e ∈ T.values cs, e < T.base.toNat := by
  intro e he
  obtain ⟨c, hc, rfl⟩ := List.mem_map.mp he
  obtain ⟨d, hd⟩ := Option.isSome_iff_exists.mp (List.all_eq_true.mp h c hc)
  rw [hd]
  exact digit_lt hd

theorem literal_evaluated (max : UInt64) : ∀ {cs : List Char}, T.areDigits cs = true → (cs = [] → T = .oct) →
    ∃ l, T.literal max cs = some l ∧ Evaluated T max (T.values cs) l
  | [], _, hT => by
    obtain rfl := hT rfl
    exact ⟨_, rfl, rfl, rfl, fun hne => absurd rfl hne, .inr ⟨not_caught_nil, .inr ⟨rfl, not_stuck_nil (by decide)⟩⟩⟩
  | [c], h, _ => by
    obtain ⟨d, hd⟩ := Option.isSome_iff_exists.mp (List.all_eq_true.mp h c List.mem_cons_self)
    refine ⟨T.lastDigit max d, by rw [LiteralType.literal, hd]; rfl, ?_⟩
    rw [LiteralType.values, List.map_singleton, hd]
    exact evaluated_lastDigit (digit_lt hd)
  | e :: c :: cs, h, _ => by
    obtain ⟨d, hd⟩ := Option.isSome_iff_exists.mp (List.all_eq_true.mp h e List.mem_cons_self)
    have htail : T.areDigits (c :: cs) = true := List.all_eq_true.mpr fun a ha =>
      List.all_eq_true.mp h a (List.mem_cons_of_mem e ha)
    obtain ⟨tail, hliteral, heval⟩ := literal_evaluated max htail nofun
    refine ⟨literalStep max (T.lastDigit max d) tail, by simp [LiteralType.literal, hd, hliteral], ?_⟩
    rw [LiteralType.values, List.map_cons, hd]
    exact evaluated_step (values_lt htail) (digit_lt hd) (List.cons_ne_nil _ _) heval

/-- What is asked of the constants of a literal that stands for `v`. -/
def Constants.Right (l : Constants) (max : UInt64) (v : Nat) : Prop :=
  ∃ overflow, l.overflow = .next overflow ∧ (overflow = true ↔ max.toNat < v) ∧
    (v ≤ max.toNat → l.value.toNat = v)

theorem number_le_append (b : Nat) (hi ds : List Nat) : number b ds ≤ number b (hi ++ ds) := by
  rw [number, number, List.reverse_append, Nat.ofDigits_append]
  exact Nat.le_add_right _ _

/-- A place is not worth more in 64 bits. -/
theorem not_caught_of_le (hb : 0 < b) (h : number b ds ≤ m) : ¬Caught b m ds := by
  rintro ⟨hi, d, lo, rfl, -, hshows, -⟩
  have hle := (number_le_append b hi (d :: lo)).trans h
  rw [number_cons] at hle
  rcases hshows with hlt | ⟨hne, -, hlt⟩
  · have hd := Nat.le_mul_of_pos_right d (Nat.pow_pos hb (n := lo.length))
    omega
  · obtain ⟨n, hn⟩ := Nat.exists_eq_succ_of_ne_zero (List.length_pos_iff.mpr hne).ne'
    have hrank : rank b lo * b ≤ b ^ lo.length := by
      rw [rank, hn, Nat.succ_sub_one, Nat.pow_succ]
      exact Nat.mul_le_mul_right b (Nat.mod_le _ _)
    have hmul := Nat.mul_le_mul_left d hrank
    have hmod := Nat.mod_le (number b lo) (2 ^ 64)
    omega

theorem not_stuck_of_lt (hb : 0 < b) (h : number b ds < 2 ^ 64) : ¬Stuck b ds := by
  rintro ⟨j, hj, hdvd, hle⟩
  have hpos : 0 < b ^ (j - 1) := Nat.pow_pos hb
  have hge := Nat.le_of_dvd hpos hdvd
  have hmono : b ^ (j - 1) ≤ b ^ j := Nat.pow_le_pow_right hb (Nat.sub_le j 1)
  omega

theorem Evaluated.right_iff {l : Constants} (h : Evaluated T max ds l) :
    l.Right max (number T.base.toNat ds) ↔
      number T.base.toNat ds ≤ max.toNat ∨ Caught T.base.toNat max.toNat ds := by
  have hb := T.base_bounds.1
  have hlt := max.toNat_lt
  by_cases hle : number T.base.toNat ds ≤ max.toNat
  · refine iff_of_true ?_ (.inl hle)
    have hcaught := not_caught_of_le (by omega) hle
    have hfree : ¬Stuck T.base.toNat ds := not_stuck_of_lt (by omega) (by omega)
    have hvalue : l.value.toNat = number T.base.toNat ds := by rw [h.value, Nat.mod_eq_of_lt (by omega)]
    rcases h.overflow with ⟨-, hc⟩ | ⟨-, ⟨-, hs⟩ | ⟨hfalse, -⟩⟩
    · exact absurd hc hcaught
    · exact absurd hs hfree
    · exact ⟨false, hfalse, iff_of_false Bool.false_ne_true (Nat.not_lt.mpr hle), fun _ => hvalue⟩
  · have hgreat : max.toNat < number T.base.toNat ds := Nat.lt_of_not_le hle
    rw [or_iff_right hle]
    constructor
    · rintro ⟨o, ho, hiff, -⟩
      rw [hiff.mpr hgreat] at ho
      rcases h.overflow with ⟨-, hc⟩ | ⟨-, ⟨hfail, -⟩ | ⟨hfalse, -⟩⟩
      · exact hc
      · rw [hfail] at ho
        cases ho
      · rw [hfalse] at ho
        cases ho
    · intro hc
      rcases h.overflow with ⟨htrue, -⟩ | ⟨hnot, -⟩
      · exact ⟨true, htrue, iff_of_true rfl hgreat, fun hle' => absurd hle' hle⟩
      · exact absurd hc hnot

/-- The characters of a literal, its type and its digits. -/
inductive Spells : List Char → LiteralType → List Char → Prop
  | hex (x : Char) (digits : List Char) : x = 'x' ∨ x = 'X' → digits ≠ [] →
    LiteralType.hex.areDigits digits = true → Spells ('0' :: x :: digits) .hex digits
  | oct (digits : List Char) : LiteralType.oct.areDigits digits = true → Spells ('0' :: digits) .oct digits
  | dec (d : Char) (digits : List Char) : d ≠ '0' → LiteralType.dec.areDigits (d :: digits) = true →
    Spells (d :: digits) .dec (d :: digits)

theorem literal_oct {max : UInt64} {digits : List Char} (h : LiteralType.oct.areDigits digits = true) :
    literal max ('0' :: digits) = ofDigits .oct max digits (digits.length + 1) := by
  cases digits with
  | nil => rfl
  | cons c cs =>
    have hc := List.all_eq_true.mp h c List.mem_cons_self
    unfold literal
    split
    · next heq =>
      cases heq
      cases hc
    · next heq =>
      cases heq
      cases hc
    · next heq =>
      cases heq
      rfl
    · next hne => exact absurd rfl (hne _)

theorem literal_dec {max : UInt64} {d : Char} (hd : d ≠ '0') (digits : List Char) :
    literal max (d :: digits) = ofDigits .dec max (d :: digits) (digits.length + 1) := by
  unfold literal
  split
  · next heq =>
    cases heq
    exact absurd rfl hd
  · next heq =>
    cases heq
    exact absurd rfl hd
  · next heq =>
    cases heq
    exact absurd rfl hd
  · rfl

theorem Spells.literal {cs digits : List Char} (h : Spells cs T digits) (max : UInt64) :
    literal max cs = ofDigits T max digits cs.length ∧ T.areDigits digits = true ∧ (digits = [] → T = .oct) := by
  cases h with
  | hex x digits hx hne hdigits =>
    refine ⟨?_, hdigits, fun h => absurd h hne⟩
    rcases hx with rfl | rfl
    · rfl
    · rfl
  | oct digits hdigits => exact ⟨literal_oct hdigits, hdigits, fun _ => rfl⟩
  | dec d digits hd hdigits => exact ⟨literal_dec hd digits, hdigits, nofun⟩

/-- **A literal is evaluated right exactly where it does not overflow, or where
a digit shows that it does** before there is a division by 0. -/
theorem literal_right_iff (max : UInt64) {cs digits : List Char} (h : Spells cs T digits) :
    ∃ l, literal max cs = some l ∧ l.valid = true ∧
      (l.Right max (number T.base.toNat (T.values digits)) ↔
        number T.base.toNat (T.values digits) ≤ max.toNat ∨
          Caught T.base.toNat max.toNat (T.values digits)) := by
  obtain ⟨hliteral, hdigits, hempty⟩ := h.literal max
  obtain ⟨l, hl, heval⟩ := literal_evaluated max hdigits hempty
  refine ⟨⟨l, true, cs.length⟩, ?_, rfl, heval.right_iff⟩
  rw [hliteral, ofDigits, if_pos hdigits, hl]
  rfl

/-- `1` and 24 times `0`. -/
def tenToThe24 : List Char := '1' :: List.replicate 24 '0'

/-- `0x1` and 17 times `0`. -/
def sixteenToThe17 : List Char := '0' :: 'x' :: '1' :: List.replicate 17 '0'

/-- The one overflows, which is not noticed, and the other divides by 0. -/
theorem literal_wrong :
    Spells tenToThe24 .dec tenToThe24 ∧ Spells sixteenToThe17 .hex (sixteenToThe17.drop 2) ∧
      (∃ l, literal 0xffffffffffffffff tenToThe24 = some l ∧ l.overflow = .next false ∧
        (0xffffffffffffffff : UInt64).toNat < number 10 (LiteralType.dec.values tenToThe24) ∧
        l.value = 2003764205206896640) ∧
      ∃ l, literal 0xffffffffffffffff sixteenToThe17 = some l ∧ l.overflow = .failed :=
  ⟨.dec '1' _ (by decide) (by decide), .hex 'x' _ (.inl rfl) (by decide) (by decide),
    ⟨_, rfl, by decide +kernel, by decide +kernel, by decide +kernel⟩, ⟨_, rfl, by decide +kernel⟩⟩

/-- `14`, which is more than 13. -/
theorem literal_right_fourteen : ∃ l, literal 13 ['1', '4'] = some l ∧ l.valid = true ∧
    (l.Right 13 (number 10 [1, 4]) ↔ number 10 [1, 4] ≤ 13 ∨ Caught 10 13 [1, 4]) :=
  literal_right_iff 13 (.dec '1' ['4'] (by decide) (by decide))

end IntegerLiterals
