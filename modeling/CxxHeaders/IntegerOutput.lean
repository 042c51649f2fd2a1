/-
What the `operator <<` of `uint_t` and of `uint128_t` write is the number in the
base that is asked for, digit by digit, and whoever reads the digits gets the
number back (`Integer.outputs`).
-/
import CxxHeaders.Uint128Output

open Outcome

namespace Uint

/-! ## Reading -/

/-- The digit that the character stands for. -/
def digitOf (base : Nat) (c : Char) : Option Nat :=
  (lower.idxOf? c <|> upper.idxOf? c).filter (· < base)

def parseDigits (base : Nat) (cs : List Char) (n : Nat) : Option Nat :=
  cs.foldlM (fun n c => (digitOf base c).map (base * n + ·)) n

/-- Reads a number that there may be a sign in front of. -/
def parse (base : Nat) : List Char → Option Nat
  | [] => none
  | c :: cs => if c = '+' ∧ cs ≠ [] then parseDigits base cs 0 else parseDigits base (c :: cs) 0

theorem parse_plus (base : Nat) {cs : List Char} (h : cs ≠ []) :
    parse base ('+' :: cs) = parseDigits base cs 0 :=
  if_pos ⟨rfl, h⟩

theorem parse_digits (base : Nat) {c : Char} {cs : List Char} (h : c ≠ '+') :
    parse base (c :: cs) = parseDigits base (c :: cs) 0 :=
  if_neg fun hplus => h hplus.1

/-- The letters that stand for digits are in one case or the other. -/
def Flags.letter (flags : Flags) (c : Char) : Char := if flags.uppercase then c.toUpper else c

/-- What is written of a number. -/
structure Written (flags : Flags) (n : Nat) (cs : List Char) : Prop where
  text : cs = (if 0 < n ∧ flags.showpos then ['+'] else []) ++
    (Nat.toDigits flags.base n).map flags.letter
  noLeadingZero : 0 < n → ((Nat.toDigits flags.base n).map flags.letter).head? ≠ some '0'
  parses : parse flags.base cs = some n

/-! ## Texts -/

variable {flags : Flags} {b n : Nat}

/-- The two tables, in full. -/
theorem Flags.table_spec (flags : Flags) {d : Nat} (hd : d < 16) :
    (lower.idxOf? (flags.table.getD d '0') <|> upper.idxOf? (flags.table.getD d '0')) = some d ∧
      flags.table.getD d '0' = flags.letter d.digitChar ∧ flags.table.getD d '0' ≠ '+' ∧
      (flags.table.getD d '0' = '0' → d = 0) := by
  have hall : ∀ (up : Bool) (d : Fin 16), (lower.idxOf? ((if up then upper else lower).getD d '0') <|>
      upper.idxOf? ((if up then upper else lower).getD d '0')) = some d.val ∧
      (if up then upper else lower).getD d '0' = (if up then d.val.digitChar.toUpper else d.val.digitChar) ∧
      (if up then upper else lower).getD d '0' ≠ '+' ∧
      ((if up then upper else lower).getD d '0' = '0' → d.val = 0) := by decide
  exact hall flags.uppercase ⟨d, hd⟩

theorem digitOf_table (flags : Flags) (hb : b ≤ 16) {d : Nat} (hd : d < b) :
    digitOf b (flags.table.getD d '0') = some d := by
  rw [digitOf, (flags.table_spec (Nat.lt_of_lt_of_le hd hb)).1]
  exact if_pos (decide_eq_true hd)

theorem text_zero (table : List Char) (b : Nat) : text table b 0 = [] := by
  rw [text, Nat.digits_zero]
  rfl

/-- Texts grow by their last digit. -/
theorem text_induction {motive : Nat → List Char → Prop} (table : List Char) (hb : 1 < b) (zero : motive 0 [])
    (step : ∀ n, 0 < n → motive (n / b) (text table b (n / b)) →
      motive n (text table b (n / b) ++ [table.getD (n % b) '0'])) (n : Nat) :
    motive n (text table b n) := by
  induction n using Nat.strongRecOn with
  | _ n ih =>
    by_cases hn : n = 0
    · rw [hn, text_zero]
      exact zero
    · have hpos := Nat.pos_of_ne_zero hn
      rw [text_succ hb hpos]
      exact step n hpos (ih _ (Nat.div_lt_self hpos hb))

theorem text_eq_toDigits (flags : Flags) (hb : 1 < b) (h16 : b ≤ 16) (hn : 0 < n) :
    text flags.table b n = (Nat.toDigits b n).map flags.letter := by
  have hdigit : ∀ m, flags.table.getD (m % b) '0' = flags.letter (m % b).digitChar := fun m =>
    (flags.table_spec (Nat.lt_of_lt_of_le (Nat.mod_lt m (by omega)) h16)).2.1
  revert hn
  refine text_induction (motive := fun n cs => 0 < n → cs = (Nat.toDigits b n).map flags.letter) flags.table hb
    (fun h => absurd h (Nat.lt_irrefl 0)) (fun n hn ih _ => ?_) n
  rw [Nat.toDigits_eq_if hb, hdigit]
  split
  · next hlt =>
    rw [Nat.div_eq_of_lt hlt, text_zero, Nat.mod_eq_of_lt hlt]
    rfl
  · next hle =>
    rw [ih (Nat.div_pos (by omega) (by omega)), List.map_append]
    rfl

theorem parseDigits_text (flags : Flags) (hb : 1 < b) (h16 : b ≤ 16) (n : Nat) :
    parseDigits b (text flags.table b n) 0 = some n := by
  refine text_induction (motive := fun n cs => parseDigits b cs 0 = some n) flags.table hb rfl
    (fun n _ ih => ?_) n
  unfold parseDigits at ih ⊢
  have hdigit := digitOf_table flags h16 (Nat.mod_lt n (by omega : 0 < b))
  rw [List.foldlM_append, ih]
  show ((digitOf b (flags.table.getD (n % b) '0')).map (b * (n / b) + ·)).bind some = some n
  rw [hdigit, Option.map_some, Option.bind_some, Nat.div_add_mod]

theorem text_head (flags : Flags) (hb : 1 < b) (h16 : b ≤ 16) (hn : 0 < n) :
    ∃ d cs, text flags.table b n = flags.table.getD d '0' :: cs ∧ d ≠ 0 ∧ d < 16 := by
  revert hn
  refine text_induction (motive := fun n cs =>
    0 < n → ∃ d cs', cs = flags.table.getD d '0' :: cs' ∧ d ≠ 0 ∧ d < 16) flags.table hb
    (fun h => absurd h (Nat.lt_irrefl 0)) (fun n hn ih _ => ?_) n
  by_cases hlt : n < b
  · rw [Nat.div_eq_of_lt hlt, text_zero, Nat.mod_eq_of_lt hlt]
    exact ⟨n, [], rfl, by omega, by omega⟩
  · obtain ⟨d, cs, htext, hd⟩ := ih (Nat.div_pos (by omega) (by omega))
    exact ⟨d, cs ++ [flags.table.getD (n % b) '0'], by rw [htext]; rfl, hd⟩

theorem written_zero (flags : Flags) : Written flags 0 ['0'] where
  text := by
    have hletter : flags.letter '0' = '0' := by
      unfold Flags.letter
      split <;> rfl
    rw [Nat.toDigits_zero, List.map_singleton, hletter, if_neg fun h => Nat.lt_irrefl 0 h.1]
    rfl
  noLeadingZero h := absurd h (Nat.lt_irrefl 0)
  parses := by rcases flags.base_cases with h | h | h <;> rw [h] <;> rfl

theorem written_text (flags : Flags) (hn : 0 < n) :
    Written flags n ((if flags.showpos then ['+'] else []) ++ text flags.table flags.base n) := by
  have hbase : 8 ≤ flags.base ∧ flags.base ≤ 16 := by rcases flags.base_cases with h | h | h <;> omega
  have hdigits := text_eq_toDigits flags (b := flags.base) (by omega) hbase.2 hn
  have hparse := parseDigits_text flags (b := flags.base) (by omega) hbase.2 n
  obtain ⟨d, cs, htext, hd, h16⟩ := text_head flags (b := flags.base) (by omega) hbase.2 hn
  obtain ⟨-, -, hplus, hzero⟩ := flags.table_spec h16
  refine ⟨?_, fun _ hhead => ?_, ?_⟩
  · rw [hdigits]
    simp only [hn, true_and]
  · rw [← hdigits, htext] at hhead
    exact hd (hzero (Option.some.inj hhead))
  · rw [htext] at hparse ⊢
    split
    · exact (parse_plus _ (List.cons_ne_nil _ _)).trans hparse
    · exact (parse_digits _ hplus).trans hparse

theorem written_output (flags : Flags) (n : Nat) :
    Written flags n (if n = 0 then ['0']
      else (if flags.showpos then ['+'] else []) ++ text flags.table flags.base n) := by
  split
  · next hzero => exact hzero ▸ written_zero flags
  · next hne => exact written_text flags (Nat.pos_of_ne_zero hne)

end Uint

namespace Integer

open Uint (Flags Written)

structure Outputs (flags : Flags) : Prop where
  uint : ∀ (N : Nat) (B : UnsignedType) (x : Uint N B), x.Valid →
    ∃ cs, Uint.output flags x = .next (.ok cs) ∧ Written flags x.toNat cs
  uint128 : ∀ x : Uint128, ∃ cs, Uint128.output flags x = .next (.ok cs) ∧ Written flags x.toNat cs

/-- **The output is the number**, in the base that is asked for, and nothing is
written outside of the buffer. -/
theorem outputs (flags : Flags) : Outputs flags where
  uint _ _ x hx := ⟨_, Uint.output_returns flags hx, Uint.written_output flags x.toNat⟩
  uint128 x := ⟨_, Uint128.output_returns flags x, Uint.written_output flags x.toNat⟩

/-- In hexadecimal, with its sign. -/
def hexadecimal : Flags := ⟨true, false, true, true⟩

theorem outputs_hexadecimal : Uint.output hexadecimal (Uint.ofInt 8191 : Uint 13 .uint8) =
    .next (.ok ['+', '1', 'F', 'F', 'F']) ∧ Written hexadecimal 8191 ['+', '1', 'F', 'F', 'F'] := by
  have hvalid : (Uint.ofInt 8191 : Uint 13 .uint8).Valid := Uint.valid_iff.mpr (by decide)
  obtain ⟨cs, hcs, hwritten⟩ := (outputs hexadecimal).uint 13 .uint8 (Uint.ofInt 8191) hvalid
  have htext : Uint.output hexadecimal (Uint.ofInt 8191 : Uint 13 .uint8) =
    .next (.ok ['+', '1', 'F', 'F', 'F']) := by decide +kernel
  cases htext.symm.trans hcs
  exact ⟨htext, hwritten⟩

end Integer
