import SomeDB.Sql.Primitive

/-!
# The operators of the primitive types (`primitive.hpp`, `primitive.cpp`)

The value of a `PrimitiveValue` is a union. An operator reads the member of its own type, whichever member was set:
from the bytes of that one and, behind them, from what stood in the memory of the union before (`Operand`).

`PrimitiveType::toString` gives the name of the type of `this`. That is a pointer to a `PrimitiveType` in each of the
types, so that `assertTypesEqual` never fails (`assertTypesEqual_ok`).
-/

namespace SomeDB

open Lib

/-! ## The members of the union -/

/-- The lowest `n` bytes of a number, in the order in which they stand in memory. -/
def littleEndian : Nat → Nat → List UInt8
  | 0, _ => []
  | n + 1, x => UInt8.ofNat x :: littleEndian n (x / 256)

/-- The number with these bytes. -/
def ofLittleEndian : List UInt8 → Nat
  | [] => 0
  | b :: bs => b.toNat + 256 * ofLittleEndian bs

@[simp] theorem littleEndian_length (n x : Nat) : (littleEndian n x).length = n := by
  induction n generalizing x with
  | zero => rfl
  | succ n ih => rw [littleEndian, List.length_cons, ih]

theorem ofLittleEndian_littleEndian {n x : Nat} (h : x < 256 ^ n) : ofLittleEndian (littleEndian n x) = x := by
  induction n generalizing x with
  | zero =>
    rw [Nat.pow_zero] at h
    rw [littleEndian, ofLittleEndian]
    omega
  | succ n ih =>
    rw [Nat.pow_succ] at h
    rw [littleEndian, ofLittleEndian, ih (by omega), UInt8.toNat_ofNat']
    omega

/-- The bytes of the member that was set. -/
def SqlValue.bytes : SqlValue → List UInt8
  | .boolean b => [if b then 1 else 0]
  | .integer i => littleEndian 4 i.toUInt32.toNat
  | .decimal d => d.slice 0 8
  | .string ptr _ => littleEndian 8 ptr

/-- A `PrimitiveValue` in memory. `stale` is what stood in the bytes of the union before the member was set. -/
structure Operand where
  value : PrimitiveValue
  stale : Block 8

namespace Operand

/-- The type that the value refers to. -/
abbrev type (o : Operand) : ColumnType := o.value.type

/-- The union. -/
def union (o : Operand) : Block 8 := o.stale.blit 0 o.value.value.bytes

/-- `value.integer`. -/
def integer (o : Operand) : Int32 := (UInt32.ofNat (ofLittleEndian (o.union.slice 0 4))).toInt32

/-- `value.decimal`. -/
def decimal (o : Operand) : Float := Float.ofBits (UInt64.ofNat (ofLittleEndian (o.union.slice 0 8)))

/-- `value.string`, the pointer. -/
def string (o : Operand) : Nat := ofLittleEndian (o.union.slice 0 8)

variable {o : Operand}

/-- The member that was set is read as it was set. -/
theorem integer_of_set {i : Int32} (h : o.value.value = .integer i) : o.integer = i := by
  have hlt : i.toUInt32.toNat < 256 ^ 4 := i.toUInt32.toNat_lt
  have hslice : o.union.slice 0 4 = littleEndian 4 i.toUInt32.toNat := by
    unfold union
    rw [h]
    exact Block.slice_blit_of_length _ (littleEndian_length ..) (by decide)
  rw [integer, hslice, ofLittleEndian_littleEndian hlt, UInt32.ofNat_toNat, Int32.toInt32_toUInt32]

theorem string_of_set {ptr : Nat} {chars : List UInt8} (h : o.value.value = .string ptr chars)
    (hptr : ptr < 2 ^ 64) : o.string = ptr := by
  have hslice : o.union.slice 0 8 = littleEndian 8 ptr := by
    unfold union
    rw [h]
    exact Block.slice_blit_of_length _ (littleEndian_length ..) (by decide)
  rw [string, hslice, ofLittleEndian_littleEndian hptr]

end Operand

/-! ## The types -/

namespace ColumnType

/-- `typeid(*this).name()`. -/
def typeName : ColumnType → String
  | .boolean => "N6somedb20BooleanPrimitiveTypeE"
  | .string => "N6somedb20VarcharPrimitiveTypeE"
  | .integer => "N6somedb20IntegerPrimitiveTypeE"
  | .decimal => "N6somedb20DecimalPrimitiveTypeE"

/-- `toString`: `typeid(this).name()`, where `this` is a `const PrimitiveType *`. -/
def toString (_ : ColumnType) : String := "PKN6somedb13PrimitiveTypeE"

/-- `assertTypesEqual`. The right operand has no name in the source. -/
def assertTypesEqual (this : ColumnType) (l _r : Operand) : Except SqlError Unit :=
  if l.type.toString = this.toString then .ok () else .error (.fault .assertion)

theorem assertTypesEqual_ok (this : ColumnType) (l r : Operand) : this.assertTypesEqual l r = .ok () := if_pos rfl

theorem assertTypesEqual_bind {α : Type} (this : ColumnType) (l r : Operand) (f : Unit → Except SqlError α) :
    (this.assertTypesEqual l r >>= f) = f () := by
  rw [assertTypesEqual_ok]
  rfl

/-- An operator that the type does not override. -/
def noFunction (this : ColumnType) (function : String) : Except SqlError PrimitiveValue :=
  .error (.runtimeError (ascii (function ++ " function doesn't exist for type " ++ this.typeName)))

end ColumnType

/-- What `divide` throws if the divisor is zero. `text` is the value that is divided. -/
def dividedByZero (value text : String) : SqlError :=
  .runtimeError (ascii (value ++ " (" ++ text ++ ") may not be divided by zero"))

/-! ## Integers -/

/-- A result that is an `int`. -/
def InRange (x : Int) : Prop := -2147483648 ≤ x ∧ x ≤ 2147483647

instance : DecidablePred InRange := fun _ => inferInstanceAs (Decidable (_ ∧ _))

theorem inRange_toInt (i : Int32) : InRange i.toInt := by
  have hle := i.le_toInt
  have hlt := i.toInt_lt
  exact ⟨by omega, by omega⟩

/-- The value of type INTEGER that an operator returns. An `int` that grows past its range is undefined. -/
def integerResult (added : Int) : Except SqlError PrimitiveValue :=
  if InRange added then .ok ⟨.integer, .integer (Int32.ofInt added), none⟩ else .error (.fault .overflow)

theorem integerResult_ok {x : Int} (h : InRange x) :
    ∃ i : Int32, integerResult x = .ok ⟨.integer, .integer i, none⟩ ∧ i.toInt = x := by
  refine ⟨Int32.ofInt x, if_pos h, ?_⟩
  obtain ⟨hlow, hhigh⟩ := h
  exact Int32.toInt_ofInt_of_le (by omega) (by omega)

theorem integerResult_eq_ok {x : Int} {v : PrimitiveValue} (h : integerResult x = .ok v) :
    InRange x ∧ v = ⟨.integer, .integer (Int32.ofInt x), none⟩ := by
  unfold integerResult at h
  split at h
  · next hx => exact ⟨hx, (Except.ok.inj h).symm⟩
  · cases h

/-- `IntegerPrimitiveType::add`. -/
def integerAdd (l r : Operand) : Except SqlError PrimitiveValue := do
  ColumnType.integer.assertTypesEqual l r
  integerResult (l.integer.toInt + r.integer.toInt)

/-- `IntegerPrimitiveType::subtract`. -/
def integerSubtract (l r : Operand) : Except SqlError PrimitiveValue := do
  ColumnType.integer.assertTypesEqual l r
  integerResult (l.integer.toInt - r.integer.toInt)

/-- `IntegerPrimitiveType::multiply`. -/
def integerMultiply (l r : Operand) : Except SqlError PrimitiveValue := do
  ColumnType.integer.assertTypesEqual l r
  integerResult (l.integer.toInt * r.integer.toInt)

/-- `IntegerPrimitiveType::divide`. -/
def integerDivide (l r : Operand) : Except SqlError PrimitiveValue := do
  ColumnType.integer.assertTypesEqual l r
  if r.integer = 0 then .error (dividedByZero "An integer value" (toString l.integer.toInt))
  else integerResult (l.integer.toInt.tdiv r.integer.toInt)

/-! ## Decimals -/

/-- The value of type DECIMAL that an operator returns. -/
def decimalResult (added : Float) : Except SqlError PrimitiveValue :=
  .ok ⟨.decimal, .decimal (decodeDouble (littleEndian 8 added.toBits.toNat)), none⟩

/-- `std::to_string` of the decimal. -/
def Operand.decimalText (o : Operand) : String :=
  if o.decimal.isNaN then (if 128 ≤ o.union.byte 7 then "-nan" else "nan") else toString o.decimal

/-- `DecimalPrimitiveType::add`. -/
def decimalAdd (l r : Operand) : Except SqlError PrimitiveValue := do
  ColumnType.decimal.assertTypesEqual l r
  decimalResult (l.decimal + r.decimal)

/-- `DecimalPrimitiveType::subtract`. -/
def decimalSubtract (l r : Operand) : Except SqlError PrimitiveValue := do
  ColumnType.decimal.assertTypesEqual l r
  decimalResult (l.decimal - r.decimal)

/-- `DecimalPrimitiveType::multiply`. -/
def decimalMultiply (l r : Operand) : Except SqlError PrimitiveValue := do
  ColumnType.decimal.assertTypesEqual l r
  decimalResult (l.decimal * r.decimal)

/-- `DecimalPrimitiveType::divide`. -/
def decimalDivide (l r : Operand) : Except SqlError PrimitiveValue := do
  ColumnType.decimal.assertTypesEqual l r
  if r.decimal == 0 then .error (dividedByZero "A decimal value" l.decimalText)
  else decimalResult (l.decimal / r.decimal)

/-! ## The virtual functions -/

namespace ColumnType

/-- `add` of the type. -/
def add (this : ColumnType) (l r : Operand) : Except SqlError PrimitiveValue :=
  match this with
  | .integer => integerAdd l r
  | .decimal => decimalAdd l r
  | _ => this.noFunction "Add"

/-- `subtract` of the type. -/
def subtract (this : ColumnType) (l r : Operand) : Except SqlError PrimitiveValue :=
  match this with
  | .integer => integerSubtract l r
  | .decimal => decimalSubtract l r
  | _ => this.noFunction "Subtract"

/-- `multiply` of the type. -/
def multiply (this : ColumnType) (l r : Operand) : Except SqlError PrimitiveValue :=
  match this with
  | .integer => integerMultiply l r
  | .decimal => decimalMultiply l r
  | _ => this.noFunction "Multiply"

/-- `divide` of the type. -/
def divide (this : ColumnType) (l r : Operand) : Except SqlError PrimitiveValue :=
  match this with
  | .integer => integerDivide l r
  | .decimal => decimalDivide l r
  | _ => this.noFunction "Divide"

end ColumnType

end SomeDB
