/-
`StringView.h`: the output of a view to a stream. Where the view is longer than
`std::streamsize` can say, it is written in pieces.

A stream is what it puts its characters into, and what it is set to. What the
sentry does besides the test of the stream is left out, and so are exceptions.
-/
import CxxHeaders.IntegralComparisons
import CxxHeaders.StringViewSearch

open Outcome

variable {CharT β : Type}

/-! ## Streams -/

/-- `std::streamsize`, of which the greatest value matters. -/
structure StreamSize where
  max : Nat
  max_pos : 0 < max

/-- `std::basic_streambuf`: how many characters it takes, and whether it takes the
one character. -/
structure StreamBuf (CharT β : Type) where
  sputn : β → List CharT → β × Int
  sputc : β → CharT → β × Bool

/-- The bits in `std::ios_base::adjustfield`. -/
structure AdjustField where
  left : Bool
  right : Bool
  internal : Bool
  deriving DecidableEq

/-- `std::ios_base::left`. -/
def AdjustField.leftOnly : AdjustField := ⟨true, false, false⟩

inductive IOState where
  | badbit
  | failbit
  deriving DecidableEq

structure OStream (CharT β : Type) where
  rdbuf : β
  rdstate : List IOState
  width : Int
  adjustfield : AdjustField
  fill : CharT

namespace OStream

def good (os : OStream CharT β) : Bool := os.rdstate.isEmpty

def setstate (os : OStream CharT β) (bit : IOState) : OStream CharT β :=
  { os with rdstate := bit :: os.rdstate }

end OStream

namespace BasicStringView

/-! ## Output -/

variable (size : StreamSize) (buf : StreamBuf CharT β)

/-- `os.rdbuf()->sputn(data, n)`. -/
def sputn (os : OStream CharT β) (data : List CharT) (n : Nat) : Outcome (OStream CharT β × Int) := do
  asserting (n ≤ data.length)
  let (rdbuf, r) := buf.sputn os.rdbuf (data.take n)
  return ({ os with rdbuf := rdbuf }, r)

/-- `doOut`, if every size is a `std::streamsize`. -/
def doOutWhole (os : OStream CharT β) (data : List CharT) (n : Nat) : Outcome (OStream CharT β) := do
  let (os, r) ← sputn buf os data n
  return if r ≠ n then os.setstate (if r ≤ 0 then .badbit else .failbit) else os

/-- The loop, which writes a `patchSize` at a time, and the rest. -/
def doOutPatches : Nat → OStream CharT β → List CharT → Nat → IOState → Outcome (OStream CharT β)
  | 0, _, _, _, _ => .blocked
  | fuel + 1, os, data, n, errorBit =>
    let patchSize := size.max
    if n > patchSize then do
      let (os, r) ← sputn buf os data patchSize
      if r ≠ patchSize then return os.setstate errorBit
      else doOutPatches fuel os data (n - patchSize) .badbit
    else do
      let (os, r) ← sputn buf os data n
      return if r ≠ n then os.setstate errorBit else os

/-- `doOut`: which one of the two it is. -/
def doOut (os : OStream CharT β) (data : List CharT) (n : Nat) : Outcome (OStream CharT β) :=
  if size.max ≥ 2 ^ 64 - 1 then doOutWhole buf os data n
  else doOutPatches size buf (n + 1) os data n .failbit

/-- `for (; i < n; ++i)`. -/
def doFillFrom : Nat → OStream CharT β → Nat → OStream CharT β
  | 0, os, _ => os
  | n + 1, os, i =>
    let (rdbuf, taken) := buf.sputc os.rdbuf os.fill
    let os := { os with rdbuf := rdbuf }
    if taken then doFillFrom n os (i + 1) else os.setstate (if i ≠ 0 then .badbit else .failbit)

def doFill (os : OStream CharT β) (n : Nat) : OStream CharT β := doFillFrom buf n os 0

/-- `operator<<`, where the field has a positive width. -/
def outputField (os : OStream CharT β) (v : BasicStringView CharT) (w : Int) : Outcome (OStream CharT β) :=
  if Integral.greaterEqual (.unsigned v.size.toNat) (.signed w) then
    doOut size buf os v.chars v.size.toNat
  else
    let toFill := w.toNat - v.size.toNat
    if os.adjustfield = .leftOnly then do
      let os ← doOut size buf os v.chars v.size.toNat
      return if os.good then doFill buf os toFill else os
    else
      let os := doFill buf os toFill
      if os.good then doOut size buf os v.chars v.size.toNat else return os

/-- `operator<<`. -/
def output (os : OStream CharT β) (v : BasicStringView CharT) : Outcome (OStream CharT β) :=
  if os.good then
    let w := os.width
    if w = 0 then doOut size buf os v.chars v.size.toNat
    else do
      let os ← if w > 0 then outputField size buf os v w else pure os
      return { os with width := 0 }
  else return os

end BasicStringView

/-! ## What is written -/

/-- The buffer takes everything: `written` is what it has been given. -/
structure StreamBuf.Accepts (buf : StreamBuf CharT β) (written : β → List CharT) : Prop where
  sputn_taken : ∀ b cs, (buf.sputn b cs).2 = cs.length
  sputn_written : ∀ b cs, written (buf.sputn b cs).1 = written b ++ cs
  sputc_taken : ∀ b c, (buf.sputc b c).2 = true
  sputc_written : ∀ b c, written (buf.sputc b c).1 = written b ++ [c]

namespace BasicStringView

variable {size : StreamSize} {buf : StreamBuf CharT β} {written : β → List CharT}
  {os os' os'' : OStream CharT β} {v : BasicStringView CharT} {data cs ds : List CharT} {n : Nat}

/-- Nothing but the written characters changes. -/
structure Wrote (written : β → List CharT) (os os' : OStream CharT β) (cs : List CharT) : Prop where
  written : written os'.rdbuf = written os.rdbuf ++ cs
  others : os' = { os with rdbuf := os'.rdbuf }

theorem Wrote.nil : Wrote written os os [] := ⟨by simp, rfl⟩

theorem Wrote.trans (h : Wrote written os os' cs) (h' : Wrote written os' os'' ds) :
    Wrote written os os'' (cs ++ ds) :=
  ⟨by rw [h'.written, h.written, List.append_assoc], by rw [h'.others, h.others]⟩

theorem Wrote.good (h : Wrote written os os' cs) : os'.good = os.good := by
  rw [h.others]
  rfl

theorem sputn_returns (os : OStream CharT β) (hbuf : buf.Accepts written) (hn : n ≤ data.length) :
    (sputn buf os data n).Returns fun r => r.2 = (n : Int) ∧ Wrote written os r.1 (data.take n) := by
  have htaken := hbuf.sputn_taken os.rdbuf (data.take n)
  rw [List.length_take, Nat.min_eq_left hn] at htaken
  rw [sputn, asserting_true hn, next_bind]
  exact ⟨htaken, hbuf.sputn_written .., rfl⟩

/-- The pieces begin all at the beginning, where only the first is to. -/
def Patched (size : StreamSize) (data : List CharT) (n : Nat) (cs : List CharT) : Prop :=
  cs.length = n ∧ ∀ j < n, cs[j]? = data[j % size.max]?

theorem patched_take (hn : n ≤ data.length) (hmax : n ≤ size.max) : Patched size data n (data.take n) := by
  refine ⟨by simp [hn], fun j hj => ?_⟩
  rw [List.getElem?_take_of_lt hj, Nat.mod_eq_of_lt (by omega)]

theorem Patched.cons (h : Patched size data (n - size.max) cs) (hn : n ≤ data.length)
    (hmax : size.max < n) : Patched size data n (data.take size.max ++ cs) := by
  have hlen : (data.take size.max).length = size.max := by simp; omega
  refine ⟨by simp [h.1]; omega, fun j hj => ?_⟩
  by_cases hjm : j < size.max
  · rw [List.getElem?_append_left (by omega), List.getElem?_take_of_lt hjm, Nat.mod_eq_of_lt hjm]
  · rw [List.getElem?_append_right (by omega), hlen, h.2 _ (by omega), Nat.mod_eq_sub_mod (Nat.not_lt.mp hjm)]

theorem doOutPatches_returns (hbuf : buf.Accepts written) (errorBit : IOState) (fuel : Nat) (hfuel : n < fuel)
    (hn : n ≤ data.length) :
    (doOutPatches size buf fuel os data n errorBit).Returns fun os' =>
      ∃ cs, Wrote written os os' cs ∧ Patched size data n cs := by
  have hpos := size.max_pos
  induction fuel generalizing os n errorBit with
  | zero => omega
  | succ fuel ih =>
    unfold doOutPatches
    dsimp only
    split
    · next hgt =>
      obtain ⟨⟨os₁, r⟩, hr, htaken, hwrote⟩ := (sputn_returns os hbuf (by omega : size.max ≤ data.length)).exists
      rw [hr, next_bind]
      dsimp only at htaken hwrote ⊢
      rw [if_neg (by simp [htaken])]
      refine (ih .badbit (by omega) (by omega)).mono fun os' ⟨cs, hrest, hcs⟩ => ?_
      exact ⟨_, hwrote.trans hrest, hcs.cons hn hgt⟩
    · next hle =>
      obtain ⟨⟨os₁, r⟩, hr, htaken, hwrote⟩ := (sputn_returns os hbuf hn).exists
      rw [hr, next_bind]
      dsimp only at htaken hwrote ⊢
      rw [if_neg (by simp [htaken])]
      exact ⟨_, hwrote, patched_take hn (by omega)⟩

/-- Whichever of the two it is. -/
theorem doOut_returns (hbuf : buf.Accepts written) (hn : n ≤ data.length) (hlt : n < 2 ^ 64) :
    (doOut size buf os data n).Returns fun os' => ∃ cs, Wrote written os os' cs ∧ Patched size data n cs := by
  unfold doOut
  split
  · next hmax =>
    obtain ⟨⟨os₁, r⟩, hr, htaken, hwrote⟩ := (sputn_returns os hbuf hn).exists
    rw [doOutWhole, hr, next_bind]
    dsimp only at htaken hwrote ⊢
    rw [if_neg (by simp [htaken])]
    exact ⟨_, hwrote, patched_take hn (by omega)⟩
  · exact doOutPatches_returns hbuf .failbit (n + 1) (Nat.lt_succ_self n) hn

theorem doFillFrom_wrote (hbuf : buf.Accepts written) (n i : Nat) (os : OStream CharT β) :
    Wrote written os (doFillFrom buf n os i) (List.replicate n os.fill) := by
  induction n generalizing os i with
  | zero => exact .nil
  | succ n ih =>
    have htaken := hbuf.sputc_taken os.rdbuf os.fill
    have hone : Wrote written os { os with rdbuf := (buf.sputc os.rdbuf os.fill).1 } [os.fill] :=
      ⟨hbuf.sputc_written .., rfl⟩
    unfold doFillFrom
    dsimp only
    rw [if_pos htaken, List.replicate_succ]
    exact hone.trans (ih (i + 1) _)

/-! ## What was to be written -/

/-- The view, and what fills it up to the width of the field. -/
def padded (os : OStream CharT β) (v : BasicStringView CharT) (cs : List CharT) : List CharT :=
  let fill := List.replicate (os.width.toNat - v.chars.length) os.fill
  if os.adjustfield = .leftOnly then cs ++ fill else fill ++ cs

/-- A view that goes on with what it begins with, as long as it is. -/
def Repeats (size : StreamSize) (v : BasicStringView CharT) : Prop :=
  ∀ i, i + size.max < v.chars.length → v.chars[i + size.max]? = v.chars[i]?

/-- What is expected of the output. -/
def Outputs (written : β → List CharT) (os : OStream CharT β) (v : BasicStringView CharT)
    (x : Outcome (OStream CharT β)) : Prop :=
  x.Returns fun os' => os'.width = 0 ∧ ∃ cs, written os'.rdbuf = written os.rdbuf ++ cs ∧
    cs.length = max os.width.toNat v.chars.length ∧ cs = padded os v v.chars

theorem length_padded (h : cs.length = v.chars.length) :
    (padded os v cs).length = max os.width.toNat v.chars.length := by
  unfold padded
  dsimp only
  split
  · simp [h]; omega
  · simp [h]; omega

theorem padded_inj : padded os v cs = padded os v ds ↔ cs = ds := by
  unfold padded
  dsimp only
  split
  · exact List.append_left_inj _
  · exact List.append_right_inj _

theorem repeats_mod (h : Repeats size v) (j : Nat) (hj : j < v.chars.length) :
    v.chars[j % size.max]? = v.chars[j]? := by
  induction j using Nat.strongRecOn with
  | ind j ih =>
    by_cases hlt : j < size.max
    · rw [Nat.mod_eq_of_lt hlt]
    · have hpos := size.max_pos
      have hback := h (j - size.max) (by omega)
      rw [Nat.sub_add_cancel (Nat.not_lt.mp hlt)] at hback
      rw [Nat.mod_eq_sub_mod (Nat.not_lt.mp hlt), ih _ (by omega) (by omega), hback]

theorem patched_iff (h : Patched size v.chars v.chars.length cs) : cs = v.chars ↔ Repeats size v := by
  obtain ⟨hlen, hget⟩ := h
  constructor
  · rintro rfl i hi
    rw [hget _ hi, hget i (by omega), Nat.add_mod_right]
  · intro hrepeats
    refine List.ext_getElem? fun j => ?_
    by_cases hj : j < v.chars.length
    · rw [hget j hj, repeats_mod hrepeats j hj]
    · rw [List.getElem?_eq_none (by omega), List.getElem?_eq_none (by omega)]

/-! ## The output -/

theorem out_view (hbuf : buf.Accepts written) (os : OStream CharT β) (v : BasicStringView CharT) :
    (doOut size buf os v.chars v.chars.length).Returns fun os' =>
      ∃ cs, Wrote written os os' cs ∧ Patched size v.chars v.chars.length cs :=
  doOut_returns hbuf (Nat.le_refl _) v.length_lt

theorem padded_of_le (h : os.width.toNat ≤ v.chars.length) : padded os v cs = cs := by
  simp [padded, Nat.sub_eq_zero_of_le h]

theorem outputField_returns (hbuf : buf.Accepts written) (hgood : os.good) :
    (outputField size buf os v os.width).Returns fun os' => ∃ cs,
      Patched size v.chars v.chars.length cs ∧ Wrote written os os' (padded os v cs) := by
  unfold outputField
  rw [toNat_size]
  split
  · next hge =>
    have hle : os.width.toNat ≤ v.chars.length := by
      simp [Integral.value] at hge
      omega
    refine (out_view hbuf os v).mono fun os' hos' => ?_
    obtain ⟨cs, hwrote, hcs⟩ := hos'
    refine ⟨cs, hcs, ?_⟩
    rwa [padded_of_le hle]
  · dsimp only
    split
    · next hleft =>
      rw [returns_bind]
      refine (out_view hbuf os v).mono fun os₁ hos₁ => ?_
      obtain ⟨cs, hwrote, hcs⟩ := hos₁
      refine ⟨cs, hcs, ?_⟩
      have hfill := doFillFrom_wrote hbuf (os.width.toNat - v.chars.length) 0 os₁
      have hsame : os₁.fill = os.fill := by rw [hwrote.others]
      rw [if_pos (hwrote.good ▸ hgood), padded, if_pos hleft, ← hsame]
      exact hwrote.trans hfill
    · next hright =>
      have hfill := doFillFrom_wrote hbuf (os.width.toNat - v.chars.length) 0 os
      rw [doFill, if_pos (hfill.good ▸ hgood)]
      refine (out_view hbuf _ v).mono fun os' hos' => ?_
      obtain ⟨cs, hwrote, hcs⟩ := hos'
      refine ⟨cs, hcs, ?_⟩
      rw [padded, if_neg hright]
      exact hfill.trans hwrote

/-- Whatever the pieces are, it is padded as it is to be. -/
theorem output_returns (size : StreamSize) (v : BasicStringView CharT) (hbuf : buf.Accepts written)
    (hgood : os.good) (hw : 0 ≤ os.width) :
    (output size buf os v).Returns fun os' => os'.width = 0 ∧ ∃ cs,
      Patched size v.chars v.chars.length cs ∧ written os'.rdbuf = written os.rdbuf ++ padded os v cs := by
  unfold output
  rw [if_pos hgood, toNat_size]
  dsimp only
  split
  · next hzero =>
    refine (out_view hbuf os v).mono fun os' ⟨cs, hwrote, hcs⟩ => ⟨?_, cs, hcs, ?_⟩
    · rw [hwrote.others]
      exact hzero
    · rw [padded_of_le (by omega), hwrote.written]
  · next hne =>
    rw [if_pos (by omega), returns_bind]
    exact (outputField_returns hbuf hgood).mono fun os' ⟨cs, hcs, hwrote⟩ => ⟨rfl, cs, hcs, hwrote.written⟩

/-- **The output is the padded view exactly if** the view repeats itself: a view
is written in pieces that all begin where it begins. -/
theorem output_iff (hbuf : buf.Accepts written) (hgood : os.good) (hw : 0 ≤ os.width) :
    Outputs written os v (output size buf os v) ↔ Repeats size v := by
  obtain ⟨os', hos', hwidth, cs, hcs, hwritten⟩ := (output_returns size v hbuf hgood hw).exists
  rw [hos', ← patched_iff hcs]
  constructor
  · rintro ⟨-, ds, hds, -, rfl⟩
    rw [hwritten] at hds
    exact padded_inj.mp (List.append_cancel_left hds)
  · rintro rfl
    exact ⟨hwidth, _, hwritten, length_padded rfl, rfl⟩

/-! ## A stream into a list -/

def listBuf : StreamBuf CharT (List CharT) where
  sputn b cs := (b ++ cs, cs.length)
  sputc b c := (b ++ [c], true)

theorem listBuf_accepts : (listBuf : StreamBuf CharT (List CharT)).Accepts fun b => b :=
  ⟨fun _ _ => rfl, fun _ _ => rfl, fun _ _ => rfl, fun _ _ => rfl⟩

/-- `std::setfill('.') << std::right << std::setw(w)`. -/
def dots (w : Int) : OStream Char (List Char) := ⟨[], [], w, ⟨false, true, false⟩, '.'⟩

/-- 64 bits. -/
def streamsize64 : StreamSize := ⟨2 ^ 63 - 1, by decide⟩

/-- 32 bits. -/
def streamsize32 : StreamSize := ⟨2 ^ 31 - 1, by decide⟩

theorem output_iff_dots :
    Outputs (fun b => b) (dots 5) ⟨['0', '1', '2'], by decide⟩
        (output streamsize64 listBuf (dots 5) ⟨['0', '1', '2'], by decide⟩) ↔
      Repeats streamsize64 (⟨['0', '1', '2'], by decide⟩ : BasicStringView Char) :=
  output_iff listBuf_accepts rfl (by decide)

/-- As many times an 'a' as is said, and a 'b'. -/
def endsInB (n : Nat) (h : n + 1 < 2 ^ 64) : BasicStringView Char :=
  ⟨List.replicate n 'a' ++ ['b'], by simpa using h⟩

theorem endsInB_not_repeats (h : size.max + 1 < 2 ^ 64) : ¬Repeats size (endsInB size.max h) := by
  intro hrepeats
  have hpos := size.max_pos
  have hsame := hrepeats 0 (by simp [endsInB])
  simp [endsInB, hpos] at hsame

/-- The 'b' is in the second piece. -/
theorem not_outputs (size : StreamSize) (h : size.max + 1 < 2 ^ 64) :
    ¬Outputs (fun b => b) (dots 0) (endsInB size.max h) (output size listBuf (dots 0) (endsInB size.max h)) := by
  intro houtputs
  have hgood : (dots 0).good := rfl
  have hreturns := output_returns size (endsInB size.max h) listBuf_accepts hgood (Int.le_refl 0)
  obtain ⟨os', hos', -, cs, hcs, hwritten⟩ := hreturns.exists
  rw [hos'] at houtputs
  obtain ⟨-, ds, hds, -, rfl⟩ := houtputs
  rw [hwritten] at hds
  have hsame := padded_inj.mp (List.append_cancel_left hds)
  exact endsInB_not_repeats h ((patched_iff hcs).mp hsame)

/-- So it is with a `std::streamsize` of 32 bits. -/
theorem output_wrong :
    ¬∀ (size : StreamSize) (os : OStream Char (List Char)) (v : BasicStringView Char),
      os.good → 0 ≤ os.width → Outputs (fun b => b) os v (output size listBuf os v) := by
  intro h
  have hfalse : ∀ size : StreamSize, ¬size.max + 1 < 2 ^ 64 := fun size hlt =>
    not_outputs size hlt (h size (dots 0) (endsInB size.max hlt) rfl (Int.le_refl 0))
  exact hfalse streamsize32 (by decide)

end BasicStringView
