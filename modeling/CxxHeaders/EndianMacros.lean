/-
`EndianMacros.h`: the order of the bytes on the network is that of a
little-endian host. The conversions depend on the host they are compiled for.
-/
import CxxHeaders.Bytes

/-- The unsigned types that there are conversions of. -/
inductive UnsignedType where
  | uint8 | uint16 | uint32 | uint64
  deriving DecidableEq, Repr

def UnsignedType.sizeof : UnsignedType → Nat
  | .uint8 => 1
  | .uint16 => 2
  | .uint32 => 4
  | .uint64 => 8

def UnsignedType.bits (type : UnsignedType) : Nat := 8 * type.sizeof

theorem UnsignedType.bits_pos (type : UnsignedType) : 0 < type.bits := by cases type <;> decide

namespace EndianMacros

def hostToSharemindNetOrder (host : Endian) (type : UnsignedType) (v : Nat) : Nat :=
  match host, type with
  | .little, _ => v
  | .big, .uint8 => v
  | .big, type => Bytes.swap type.sizeof v

def sharemindNetToHostOrder (host : Endian) (type : UnsignedType) (v : Nat) : Nat :=
  match host, type with
  | .little, _ => v
  | .big, .uint8 => v
  | .big, type => Bytes.swap type.sizeof v

variable {host : Endian} {type : UnsignedType} {v : Nat}

/-- Every host sends the same bytes. -/
theorem encode_hostToSharemindNetOrder :
    Bytes.encode host type.sizeof (hostToSharemindNetOrder host type v) = Bytes.little type.sizeof v := by
  cases host with
  | little => rfl
  | big =>
    have hswap : (Bytes.little type.sizeof (Bytes.swap type.sizeof v)).reverse =
        Bytes.little type.sizeof v := by
      rw [Bytes.little_swap, List.reverse_reverse]
    cases type with
    | uint8 => rfl
    | _ => exact hswap

/-- Every host understands them. -/
theorem sharemindNetToHostOrder_decode {bs : List UInt8} (h : bs.length = type.sizeof) :
    sharemindNetToHostOrder host type (Bytes.decode host bs) = Bytes.ofLittle bs := by
  cases host with
  | little => rfl
  | big =>
    have hswap : Bytes.swap type.sizeof (Bytes.ofLittle bs.reverse) = Bytes.ofLittle bs := by
      have hlen : type.sizeof = bs.reverse.length := by rw [List.length_reverse, h]
      unfold Bytes.swap
      rw [hlen, Bytes.little_ofLittle, List.reverse_reverse]
    cases type with
    | uint8 =>
      obtain ⟨b, rfl⟩ := List.length_eq_one_iff.mp h
      rfl
    | _ => exact hswap

end EndianMacros
