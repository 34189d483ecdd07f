import SomeDB.Disk.PageDirectory

/-!
# Primitive types (`primitive.hpp`, `primitive.cpp`)

The classes that derive from `PrimitiveType` are the column types. A value is read back from the bytes that
`add_tuple` stored with `deserialize` (`deserialize_bytes`). There is no constructor of `PrimitiveValue` that
takes a `char *` alone, so that `VarcharPrimitiveType::deserialize` calls the one that takes a `bool`.
-/

namespace SomeDB

open Lib

/-- What is thrown, or why a call does not complete otherwise. -/
inductive SqlError where
  /-- `std::runtime_error` with its message. -/
  | runtimeError (what : List UInt8)
  | fault (f : Fault)
  deriving DecidableEq

/-- The characters of a string literal. -/
def ascii (s : String) : List UInt8 := s.toList.map fun c => UInt8.ofNat c.toNat

/-- The member of the union that was set. A string is a pointer, and `chars` is what it points to. -/
inductive SqlValue where
  | boolean (b : Bool)
  | integer (i : Int32)
  | decimal (d : Block 8)
  | string (ptr : Nat) (chars : List UInt8)

/-- `PrimitiveValue`. The constructors that take no length leave it as it is. -/
structure PrimitiveValue where
  type : ColumnType
  value : SqlValue
  length : Option UInt16

/-- `BOOLEAN_SIZE`, `STRING_SIZE`, `INTEGER_SIZE` and `DECIMAL_SIZE`. -/
def ColumnType.getSize : ColumnType → UInt32
  | .boolean => 1
  | .string => 1024
  | .integer => 4
  | .decimal => 8

/-- `decode_int32`. -/
def decodeInt32 (buf : List UInt8) : Int32 := (decodeUint32 buf).toInt32

/-- `decode_double`: the bytes in memory. -/
def decodeDouble (buf : List UInt8) : Block 8 := fun i => buf.getD i.val 0

/-- `deserialize` of the bytes at `buf`. -/
def ColumnType.deserialize (t : ColumnType) (buf : List UInt8) : Except Fault PrimitiveValue :=
  if buf.length < t.getSize.toNat then .error .outOfBounds
  else
    match t with
    | .boolean => .ok ⟨.boolean, .boolean (buf.getD 0 0 ≠ 0), none⟩
    | .integer => .ok ⟨.integer, .integer (decodeInt32 (buf.take 4)), none⟩
    | .decimal => .ok ⟨.decimal, .decimal (decodeDouble (buf.take 8)), none⟩
    -- the pointer to the characters is converted to a `bool`
    | .string => .ok ⟨.string, .boolean true, none⟩

/-- The value that a column value is for the SQL layer. -/
def ColumnValue.primitive : ColumnValue → PrimitiveValue
  | .boolean b => ⟨.boolean, .boolean (b ≠ 0), none⟩
  | .integer i => ⟨.integer, .integer i, none⟩
  | .decimal d => ⟨.decimal, .decimal d, none⟩
  | .string s => ⟨.string, .string 0 s, some (UInt16.ofNat s.length)⟩

/-! ## What is read back -/

theorem decodeDouble_slice (d : Block 8) : decodeDouble (d.slice 0 8) = d := by
  funext i
  simp [decodeDouble, Block.slice, List.getD_eq_getElem?_getD, Block.byte]

/-- The size of a type is the number of bytes that `add_tuple` stores, unless it is a string. -/
theorem ColumnValue.bytes_length {v : ColumnValue} (h : v.type ≠ .string) :
    v.bytes.length = v.type.getSize.toNat := by
  cases v with
  | boolean => rfl
  | integer => rfl
  | decimal d => simp [ColumnValue.bytes, ColumnValue.type, ColumnType.getSize]
  | string => exact absurd rfl h

/-- A value that is not a string is read back from where it was stored. -/
theorem ColumnValue.deserialize_bytes {v : ColumnValue} (h : v.type ≠ .string) (rest : List UInt8) :
    v.type.deserialize (v.bytes ++ rest) = .ok v.primitive := by
  have hlen := ColumnValue.bytes_length h
  unfold ColumnType.deserialize
  rw [if_neg (by rw [List.length_append]; omega)]
  cases v with
  | boolean b =>
    simp only [ColumnValue.type, ColumnValue.bytes, ColumnValue.primitive, List.singleton_append,
      List.getD_cons_zero]
    by_cases hb : b = 0
    · simp [hb]
    · simp [hb]
  | integer i =>
    simp only [ColumnValue.type, ColumnValue.bytes, ColumnValue.primitive]
    rw [List.take_left' (encodeUint32_length _), decodeInt32, decodeUint32_encodeUint32,
      Int32.toInt32_toUInt32]
  | decimal d =>
    simp only [ColumnValue.type, ColumnValue.bytes, ColumnValue.primitive]
    rw [List.take_left' (Block.slice_length ..), decodeDouble_slice]
  | string => exact absurd rfl h

/-- What a string column gives, whatever is stored. -/
theorem deserialize_string {buf : List UInt8} {v : PrimitiveValue}
    (h : ColumnType.string.deserialize buf = .ok v) : v = ⟨.string, .boolean true, none⟩ := by
  unfold ColumnType.deserialize at h
  split at h
  · cases h
  · cases h
    rfl

/-- The arguments of a tuple that begins with a string. -/
def stringFirst (name s : List UInt8) (cols : { cols : List (List UInt8 × ColumnValue) // cols.length < 255 }) :
    AddTupleArgs :=
  ⟨(name, .string s) :: cols.1, by have := cols.2; simp only [List.length_cons]; omega⟩

/-- A string is read back from a tuple that begins with it, with `rest` behind the tuple in memory, and the next
column begins where the string ends. -/
def StringSurvives (name s : List UInt8) (cols : { cols : List (List UInt8 × ColumnValue) // cols.length < 255 })
    (rest : List UInt8) : Prop :=
  ∃ tupleBuf v, encodeTuple (tupleSize (stringFirst name s cols)).toNat
      ((stringFirst name s cols).1.map (·.2)) [] = .ok tupleBuf ∧
    ColumnType.string.deserialize (tupleBuf ++ rest) = .ok v ∧
    (∃ ptr, v.value = .string ptr s) ∧ v.length = some (UInt16.ofNat s.length) ∧
    ColumnType.string.getSize.toNat = (ColumnValue.string s).bytes.length

theorem not_stringSurvives (name s rest : List UInt8)
    (cols : { cols : List (List UInt8 × ColumnValue) // cols.length < 255 }) :
    ¬ StringSurvives name s cols rest := by
  rintro ⟨tupleBuf, v, -, hv, ⟨ptr, hvalue⟩, -, -⟩
  rw [deserialize_string hv] at hvalue
  cases hvalue

/-- No string is read back, whatever the other columns are and whatever lies behind the tuple. -/
theorem stringSurvives_never :
    ∀ (name s : List UInt8) (cols : { cols : List (List UInt8 × ColumnValue) // cols.length < 255 })
      (rest : List UInt8), ¬ StringSurvives name s cols rest :=
  fun name s cols rest => not_stringSurvives name s rest cols

/-- The text `hi` is read as `true`. -/
theorem stringSurvives_fails :
    (∃ tupleBuf, encodeTuple (tupleSize (stringFirst [116] [104, 105] ⟨[], by decide⟩)).toNat
        [.string [104, 105]] [] = .ok tupleBuf ∧
      ColumnType.string.deserialize (tupleBuf ++ List.replicate 1024 0) =
        .ok ⟨.string, .boolean true, none⟩) ∧
      ¬ StringSurvives [116] [104, 105] ⟨[], by decide⟩ (List.replicate 1024 0) := by
  refine ⟨⟨[0, 2, 104, 105], rfl, ?_⟩, not_stringSurvives _ _ _ _⟩
  have hlen : ¬ ([0, 2, 104, 105] ++ List.replicate 1024 0 : List UInt8).length < 1024 := by
    rw [List.length_append, List.length_replicate]
    exact Nat.not_lt.mpr (Nat.le_add_left ..)
  exact if_neg hlen

end SomeDB
