import SomeDB.Lib.Block

/-!
# Serialization of integers (`serialize.h`, `serialize.c`)

The encoders store an integer as big-endian bytes; the bytes they store at `buf` are the result here.
A decoder reads the bytes at `buf`. The round trips (`decodeUint32_encodeUint32`,
`decodeUint16_encodeUint16`) hold for every value of the type.
-/

namespace SomeDB

open Lib

/-- `encode_uint32`: the four bytes stored at `buf`. -/
def encodeUint32 (data : UInt32) : List UInt8 :=
  [((data >>> 24) &&& 0xFF).toUInt8, ((data >>> 16) &&& 0xFF).toUInt8,
    ((data >>> 8) &&& 0xFF).toUInt8, (data &&& 0xFF).toUInt8]

/-- `decode_uint32` of the bytes at `buf`. -/
def decodeUint32 (buf : List UInt8) : UInt32 :=
  ((buf.getD 0 0).toUInt32 <<< 24) ||| ((buf.getD 1 0).toUInt32 <<< 16) |||
    ((buf.getD 2 0).toUInt32 <<< 8) ||| (buf.getD 3 0).toUInt32

/-- `encode_uint16`: the two bytes stored at `buf`. -/
def encodeUint16 (data : UInt16) : List UInt8 :=
  [((data >>> 8) &&& 0xFF).toUInt8, (data &&& 0xFF).toUInt8]

/-- `decode_uint16` of the bytes at `buf`. -/
def decodeUint16 (buf : List UInt8) : UInt16 :=
  ((buf.getD 0 0).toUInt16 <<< 8) ||| (buf.getD 1 0).toUInt16

@[simp] theorem encodeUint32_length (x : UInt32) : (encodeUint32 x).length = 4 := rfl

@[simp] theorem encodeUint16_length (x : UInt16) : (encodeUint16 x).length = 2 := rfl

private theorem and_byte (a : Nat) : a &&& 255 = a % 256 := Nat.and_two_pow_sub_one_eq_mod a 8

/-- Bytes put together with `|` are a sum: the lower part stays below the upper one. -/
private theorem mul_or_eq_add (a b : Nat) {w k : Nat} (hw : w = 2 ^ k) (h : b < w) :
    a * w ||| b = a * w + b := by
  subst hw
  rw [Nat.mul_comm, Nat.two_pow_add_eq_or_of_lt h]

theorem decodeUint32_toNat (a b c d : UInt8) : (decodeUint32 [a, b, c, d]).toNat =
    a.toNat * 2 ^ 24 + (b.toNat * 2 ^ 16 + (c.toNat * 2 ^ 8 + d.toNat)) := by
  have ha := a.toNat_lt
  have hb := b.toNat_lt
  have hc := c.toNat_lt
  have hd := d.toNat_lt
  simp only [decodeUint32, List.getD_cons_zero, List.getD_cons_succ]
  simp [Nat.shiftLeft_eq]
  rw [Nat.or_assoc, Nat.or_assoc, Nat.mod_eq_of_lt (a := _ * 16777216) (by omega),
    Nat.mod_eq_of_lt (a := _ * 65536) (by omega), Nat.mod_eq_of_lt (a := _ * 256) (by omega),
    mul_or_eq_add (w := 256) (k := 8) _ _ rfl (by omega),
    mul_or_eq_add (w := 65536) (k := 16) _ _ rfl (by omega),
    mul_or_eq_add (w := 16777216) (k := 24) _ _ rfl (by omega)]

theorem decodeUint16_toNat (a b : UInt8) :
    (decodeUint16 [a, b]).toNat = a.toNat * 2 ^ 8 + b.toNat := by
  have ha := a.toNat_lt
  have hb := b.toNat_lt
  simp only [decodeUint16, List.getD_cons_zero, List.getD_cons_succ]
  simp [Nat.shiftLeft_eq]
  rw [Nat.mod_eq_of_lt (a := _ * 256) (by omega), 
    mul_or_eq_add (w := 256) (k := 8) _ _ rfl (by omega)]

/-- The last two bytes of a `u32` are its lower half. -/
theorem decodeUint16_eq_mod (a b c d : UInt8) :
    (decodeUint16 [c, d]).toNat = (decodeUint32 [a, b, c, d]).toNat % 65536 := by
  have hc := c.toNat_lt
  have hd := d.toNat_lt
  rw [decodeUint32_toNat, decodeUint16_toNat]
  omega

@[simp] theorem decodeUint32_encodeUint32 (x : UInt32) : decodeUint32 (encodeUint32 x) = x := by
  apply UInt32.toNat_inj.mp
  have := x.toNat_lt
  rw [encodeUint32, decodeUint32_toNat]
  simp [Nat.shiftRight_eq_div_pow, and_byte]
  omega

@[simp] theorem decodeUint16_encodeUint16 (x : UInt16) : decodeUint16 (encodeUint16 x) = x := by
  apply UInt16.toNat_inj.mp
  have := x.toNat_lt
  rw [encodeUint16, decodeUint16_toNat]
  simp [Nat.shiftRight_eq_div_pow, and_byte]
  omega

/-- The bytes that were read are written back. -/
theorem encodeUint16_decodeUint16 (a b : UInt8) : encodeUint16 (decodeUint16 [a, b]) = [a, b] := by
  have ha := a.toNat_lt
  have hb := b.toNat_lt
  have hx := decodeUint16_toNat a b
  generalize decodeUint16 [a, b] = x at hx
  rw [encodeUint16, List.cons.injEq, List.cons.injEq, ← UInt8.toNat_inj, ← UInt8.toNat_inj]
  simp [Nat.shiftRight_eq_div_pow, and_byte]
  omega

end SomeDB
