/-
Unsigned numbers as bytes, the lowest or the highest one first.
-/
import Mathlib.Algebra.Order.Group.Nat
import Mathlib.Tactic.Linarith

/-- The order in which a machine keeps the bytes of a number. -/
inductive Endian where
  | little | big
  deriving DecidableEq, Repr

namespace Bytes

/-- `size` bytes of the number, the lowest one first. -/
def little : Nat → Nat → List UInt8
  | 0, _ => []
  | size + 1, n => UInt8.ofNat n :: little size (n / 256)

def ofLittle : List UInt8 → Nat
  | [] => 0
  | b :: bs => b.toNat + 256 * ofLittle bs

/-- How a machine keeps a number in `size` bytes. -/
def encode (e : Endian) (size n : Nat) : List UInt8 :=
  match e with
  | .little => little size n
  | .big => (little size n).reverse

def decode (e : Endian) (bs : List UInt8) : Nat :=
  match e with
  | .little => ofLittle bs
  | .big => ofLittle bs.reverse

/-- The number with its bytes in reverse order. -/
def swap (size n : Nat) : Nat := ofLittle (little size n).reverse

variable {size n : Nat} {e : Endian} {bs : List UInt8}

@[simp] theorem length_little : (little size n).length = size := by
  induction size generalizing n with
  | zero => rfl
  | succ size ih => simp [little, ih]

theorem ofLittle_little (h : n < 256 ^ size) : ofLittle (little size n) = n := by
  induction size generalizing n with
  | zero =>
    have hn : n = 0 := by omega
    simp [little, ofLittle, hn]
  | succ size ih =>
    have hdiv : n / 256 < 256 ^ size := Nat.div_lt_of_lt_mul (by rwa [Nat.pow_succ'] at h)
    simp only [little, ofLittle, ih hdiv, UInt8.toNat_ofNat']
    omega

theorem little_ofLittle (bs : List UInt8) : little bs.length (ofLittle bs) = bs := by
  induction bs with
  | nil => rfl
  | cons b bs ih =>
    have hb := b.toNat_lt
    have hdiv : (b.toNat + 256 * ofLittle bs) / 256 = ofLittle bs := by omega
    have hbyte : UInt8.ofNat (b.toNat + 256 * ofLittle bs) = b := by
      refine UInt8.toNat_inj.mp ?_
      rw [UInt8.toNat_ofNat']
      omega
    simp only [List.length_cons, little, ofLittle, hdiv, ih, hbyte]

theorem ofLittle_lt (bs : List UInt8) : ofLittle bs < 256 ^ bs.length := by
  induction bs with
  | nil => simp [ofLittle]
  | cons b bs ih =>
    have hb := b.toNat_lt
    rw [List.length_cons, Nat.pow_succ', ofLittle]
    omega

/-- What a machine of the other kind reads. -/
theorem little_swap (size n : Nat) : little size (swap size n) = (little size n).reverse := by
  have h := little_ofLittle (little size n).reverse
  rwa [List.length_reverse, length_little] at h

end Bytes
