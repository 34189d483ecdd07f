import SomeDB.Sql.PrimitiveOps
import SomeDB.Sql.Schema

/-!
# Logical expressions (`logical_expression.hpp`, `logical_expression.cpp`)

`evaluate` computes the value of a tree of constants, columns and binary operators for a row. An operator is the
function of the type of its left operand. The value has the type that the tree returns
(`evaluate_returnType`), because each operator returns a value of its own type and a column is read as the type that the
schema gives it.

Nothing compares the type of the right operand: it is read as if it had the type of the left one
(`rejectsMismatches_iff`).
-/

namespace SomeDB

open Lib

/-- `BinaryOpType`. -/
inductive BinaryOpType where
  | add
  | subtract
  | divide
  | multiply
  deriving DecidableEq, Repr

/-- The `switch` over the operator. -/
def BinaryOpType.apply (op : BinaryOpType) (lhs rhs : Operand) : Except SqlError PrimitiveValue :=
  match op with
  | .add => lhs.type.add lhs rhs
  | .subtract => lhs.type.subtract lhs rhs
  | .multiply => lhs.type.multiply lhs rhs
  | .divide => lhs.type.divide lhs rhs

/-- `LogicalExpr` and what derives from it. A `PrimitiveTypeRef` can be null. -/
inductive LogicalExpr where
  | constant (value : PrimitiveValue)
  | column (name : List UInt8) (retType : Option ColumnType)
  | binary (l r : LogicalExpr) (op : BinaryOpType)

/-- The bytes of the unions before the values of a tree are stored there. A node is known by the indices of the
children on the way to it. -/
abbrev StaleBytes := List Nat → Block 8

/-- The bytes for the values of the child with this index. -/
def StaleBytes.child (stale : StaleBytes) (index : Nat) : StaleBytes := fun path => stale (index :: path)

namespace LogicalExpr

/-- `return_type`. -/
def returnType : LogicalExpr → Option ColumnType
  | constant value => some value.type
  | column _ retType => retType
  | binary l _ _ => l.returnType

/-- `ColumnLogicalExpr::evaluate`. -/
def evaluateColumn (row : List UInt8) (table : Table) (name : List UInt8) : Except SqlError PrimitiveValue :=
  match table.columns.find? fun col => col.name = name with
  | none => .error (.runtimeError (ascii "Column " ++ name ++ ascii " not found in the schema"))
  | some schemaCol => getValue row schemaCol table

/-- `evaluate`. -/
def evaluate (row : List UInt8) (table : Table) : LogicalExpr → StaleBytes → Except SqlError PrimitiveValue
  | constant value, _ => .ok value
  | column name _, _ => evaluateColumn row table name
  | binary l r op, stale => do
    let lhs ← l.evaluate row table (stale.child 0)
    let rhs ← r.evaluate row table (stale.child 1)
    op.apply ⟨lhs, stale [0]⟩ ⟨rhs, stale [1]⟩

variable {row : List UInt8} {table : Table} {stale : StaleBytes} {l r : LogicalExpr} {op : BinaryOpType}
  {v lhs rhs : PrimitiveValue}

theorem evaluate_binary (hl : l.evaluate row table (stale.child 0) = .ok lhs)
    (hr : r.evaluate row table (stale.child 1) = .ok rhs) :
    (binary l r op).evaluate row table stale = op.apply ⟨lhs, stale [0]⟩ ⟨rhs, stale [1]⟩ := by
  rw [evaluate, hl]
  simp only [bind, Except.bind, hr]

/-- The left operand is evaluated before the right one. -/
theorem evaluate_binary_left {e : SqlError} (hl : l.evaluate row table (stale.child 0) = .error e) :
    (binary l r op).evaluate row table stale = .error e := by
  rw [evaluate, hl]
  rfl

theorem evaluate_binary_right {e : SqlError} (hl : l.evaluate row table (stale.child 0) = .ok lhs)
    (hr : r.evaluate row table (stale.child 1) = .error e) :
    (binary l r op).evaluate row table stale = .error e := by
  rw [evaluate, hl]
  simp only [bind, Except.bind, hr]

theorem evaluate_binary_eq_ok (h : (binary l r op).evaluate row table stale = .ok v) :
    ∃ lhs rhs, l.evaluate row table (stale.child 0) = .ok lhs ∧ r.evaluate row table (stale.child 1) = .ok rhs ∧
      op.apply ⟨lhs, stale [0]⟩ ⟨rhs, stale [1]⟩ = .ok v := by
  rw [evaluate] at h
  obtain ⟨lhs, hl, h⟩ := except_bind_eq_ok h
  obtain ⟨rhs, hr, h⟩ := except_bind_eq_ok h
  exact ⟨lhs, rhs, hl, hr, h⟩

end LogicalExpr

/-! ## What an operator returns -/

/-- The result of an operator in the integers. A division truncates. -/
def BinaryOpType.exact : BinaryOpType → Int → Int → Int
  | .add, a, b => a + b
  | .subtract, a, b => a - b
  | .multiply, a, b => a * b
  | .divide, a, b => a.tdiv b

/-- The operand, read as a value of the type, is zero. -/
def Operand.IsZero (o : Operand) : ColumnType → Prop
  | .integer => o.integer = 0
  | .decimal => (o.decimal == 0) = true
  | _ => False

instance (o : Operand) : DecidablePred o.IsZero
  | .integer => inferInstanceAs (Decidable (_ = _))
  | .decimal => inferInstanceAs (Decidable (_ = _))
  | .boolean => inferInstanceAs (Decidable False)
  | .string => inferInstanceAs (Decidable False)

section Apply

variable {op : BinaryOpType} {lhs rhs : Operand}

/-- A BOOLEAN or a STRING has no operators. -/
theorem apply_unsupported (op : BinaryOpType) (rhs : Operand) (h : lhs.type = .boolean ∨ lhs.type = .string) :
    ∃ what, op.apply lhs rhs = .error (.runtimeError what) := by
  unfold BinaryOpType.apply
  rcases h with h | h <;> rw [h] <;> cases op <;> exact ⟨_, rfl⟩

/-- The operators of INTEGER. -/
theorem apply_integer (op : BinaryOpType) (rhs : Operand) (h : lhs.type = .integer) :
    op.apply lhs rhs =
      if op = .divide ∧ rhs.integer = 0 then
        .error (dividedByZero "An integer value" (toString lhs.integer.toInt))
      else integerResult (op.exact lhs.integer.toInt rhs.integer.toInt) := by
  unfold BinaryOpType.apply
  rw [h]
  have hassert := @ColumnType.assertTypesEqual_bind PrimitiveValue .integer lhs rhs
  cases op with
  | divide =>
    by_cases hzero : rhs.integer = 0
    · rw [if_pos ⟨rfl, hzero⟩]
      exact (hassert _).trans (if_pos hzero)
    · rw [if_neg fun hz => hzero hz.2]
      exact (hassert _).trans (if_neg hzero)
  | _ =>
    rw [if_neg fun hz => absurd hz.1 (by decide)]
    exact hassert _

/-- The operators of DECIMAL. -/
theorem apply_decimal (op : BinaryOpType) (rhs : Operand) (h : lhs.type = .decimal) :
    (op = .divide ∧ rhs.IsZero .decimal ∧ op.apply lhs rhs = .error (dividedByZero "A decimal value" lhs.decimalText)) ∨
      (¬ (op = .divide ∧ rhs.IsZero .decimal) ∧ ∃ d, op.apply lhs rhs = decimalResult d) := by
  unfold BinaryOpType.apply
  rw [h]
  have hassert := @ColumnType.assertTypesEqual_bind PrimitiveValue .decimal lhs rhs
  cases op with
  | divide =>
    by_cases hzero : rhs.IsZero .decimal
    · exact .inl ⟨rfl, hzero, (hassert _).trans (if_pos hzero)⟩
    · exact .inr ⟨fun hz => hzero hz.2, _, (hassert _).trans (if_neg hzero)⟩
  | _ => exact .inr ⟨fun hz => absurd hz.1 (by decide), _, hassert _⟩

/-- What an operator returns has the type of its left operand. -/
theorem apply_type {v : PrimitiveValue} (h : op.apply lhs rhs = .ok v) :
    v.type = lhs.type ∧ lhs.type ≠ .boolean ∧ lhs.type ≠ .string := by
  cases htype : lhs.type with
  | boolean =>
    obtain ⟨what, he⟩ := apply_unsupported op rhs (.inl htype)
    cases h.symm.trans he
  | string =>
    obtain ⟨what, he⟩ := apply_unsupported op rhs (.inr htype)
    cases h.symm.trans he
  | integer =>
    rw [apply_integer op rhs htype] at h
    split at h
    · cases h
    · obtain ⟨-, rfl⟩ := integerResult_eq_ok h
      exact ⟨rfl, by decide, by decide⟩
  | decimal =>
    rcases apply_decimal op rhs htype with ⟨-, -, he⟩ | ⟨-, d, he⟩
    · cases h.symm.trans he
    · cases h.symm.trans he
      exact ⟨rfl, by decide, by decide⟩

end Apply

/-! ## Types -/

/-- A value is read as the type that it is asked for. -/
theorem deserialize_type {t : ColumnType} {buf : List UInt8} {v : PrimitiveValue} (h : t.deserialize buf = .ok v) :
    v.type = t := by
  unfold ColumnType.deserialize at h
  split at h
  · cases h
  · cases t <;> cases h <;> rfl

theorem getValueLoop_type {data : List UInt8} {col : SchemaColumn} {cols : List SchemaColumn} {off : UInt32}
    {v : PrimitiveValue} (h : getValueLoop data col cols off = .ok v) : col.dataType = some v.type := by
  induction cols generalizing off with
  | nil => cases h
  | cons schCol cols ih =>
    unfold getValueLoop at h
    cases htype : col.dataType with
    | none =>
      rw [htype] at h
      cases h
    | some t =>
      simp only [htype] at h
      split at h
      · cases hval : t.deserialize (data.drop off.toNat) with
        | error e =>
          rw [hval] at h
          cases h
        | ok w =>
          rw [hval] at h
          cases h
          rw [deserialize_type hval]
      · rw [← htype]
        exact ih h

namespace LogicalExpr

variable {row : List UInt8} {table : Table} {stale : StaleBytes} {e l r : LogicalExpr} {op : BinaryOpType}
  {v : PrimitiveValue}

/-- Each column of the tree is declared with the type that the schema gives to the first column of its name. -/
def Declares (table : Table) : LogicalExpr → Prop
  | constant _ => True
  | column name retType => ∀ col, (table.columns.find? fun col => col.name = name) = some col → retType = col.dataType
  | binary l r _ => l.Declares table ∧ r.Declares table

theorem evaluate_type (hdecl : e.Declares table) (h : e.evaluate row table stale = .ok v) :
    e.returnType = some v.type := by
  induction e generalizing stale v with
  | constant value =>
    cases h
    rfl
  | column name retType =>
    unfold evaluate evaluateColumn at h
    split at h
    · cases h
    · next col hcol => rw [returnType, hdecl col hcol, getValueLoop_type h]
  | binary l r op ihl ihr =>
    obtain ⟨lhs, rhs, hl, -, happly⟩ := evaluate_binary_eq_ok h
    rw [returnType, ihl hdecl.1 hl, (apply_type happly).1]

theorem evaluate_unsupported (hdecl : l.Declares table)
    (htype : l.returnType = some .boolean ∨ l.returnType = some .string) :
    (binary l r op).evaluate row table stale ≠ .ok v := by
  intro h
  obtain ⟨lhs, rhs, hl, -, happly⟩ := evaluate_binary_eq_ok h
  obtain ⟨-, hboolean, hstring⟩ := apply_type happly
  rw [evaluate_type hdecl hl, Option.some.injEq, Option.some.injEq] at htype
  exact htype.elim hboolean hstring

/-- The value of a tree has the type that the tree returns, and an operator on a BOOLEAN or a STRING returns no
value. -/
theorem evaluate_returnType (row : List UInt8) (stale : StaleBytes) (hdecl : e.Declares table) :
    (∀ v, e.evaluate row table stale = .ok v → e.returnType = some v.type) ∧
      ∀ l r op, e = binary l r op → l.returnType = some .boolean ∨ l.returnType = some .string →
        ∀ v, e.evaluate row table stale ≠ .ok v := by
  refine ⟨fun v => evaluate_type hdecl, ?_⟩
  rintro l r op rfl htype v
  exact evaluate_unsupported hdecl.1 htype

end LogicalExpr

/-- A table with an INTEGER and a BOOLEAN. -/
def numberFlag : Table := ⟨[], [⟨[97], some .integer⟩, ⟨[98], some .boolean⟩]⟩

/-- `a + 1`. -/
def numberPlusOne : LogicalExpr :=
  .binary (.column [97] (some .integer)) (.constant ⟨.integer, .integer 1, none⟩) .add

open LogicalExpr

theorem numberPlusOne_declares : numberPlusOne.Declares numberFlag := by
  refine ⟨fun col hcol => ?_, trivial⟩
  cases hcol
  rfl

/-- In a row with 41 and `true`. -/
theorem evaluate_numberPlusOne :
    numberPlusOne.evaluate [0, 0, 0, 41, 1] numberFlag (fun _ => Block.zero) = .ok ⟨.integer, .integer 42, none⟩ ∧
      numberPlusOne.returnType = some .integer := by
  have hcol : evaluate [0, 0, 0, 41, 1] numberFlag (.column [97] (some .integer)) (fun _ => Block.zero) =
      .ok ⟨.integer, .integer 41, none⟩ := rfl
  have hrun : numberPlusOne.evaluate [0, 0, 0, 41, 1] numberFlag (fun _ => Block.zero) =
      .ok ⟨.integer, .integer 42, none⟩ := by
    rw [numberPlusOne, evaluate_binary hcol rfl, apply_integer _ _ rfl, Operand.integer_of_set rfl,
      Operand.integer_of_set rfl]
    rfl
  exact ⟨hrun, (LogicalExpr.evaluate_returnType _ _ numberPlusOne_declares).1 _ hrun⟩

/-! ## Operands of different types -/

/-- Stopped by the assertion or by an exception. -/
def Rejected (x : Except SqlError PrimitiveValue) : Prop :=
  x = .error (.fault .assertion) ∨ ∃ what, x = .error (.runtimeError what)

/-- The type of the left operand does not have the operator, or the right operand is zero where the left one is
divided by it. -/
def Inapplicable (op : BinaryOpType) (lhs rhs : Operand) : Prop :=
  lhs.type = .boolean ∨ lhs.type = .string ∨ op = .divide ∧ rhs.IsZero lhs.type

/-- An operator rejects nothing else; the type of the right operand does not matter. -/
theorem rejected_apply_iff (op : BinaryOpType) (lhs rhs : Operand) :
    Rejected (op.apply lhs rhs) ↔ Inapplicable op lhs rhs := by
  cases htype : lhs.type with
  | boolean =>
    obtain ⟨what, he⟩ := apply_unsupported op rhs (.inl htype)
    exact iff_of_true (.inr ⟨what, he⟩) (.inl htype)
  | string =>
    obtain ⟨what, he⟩ := apply_unsupported op rhs (.inr htype)
    exact iff_of_true (.inr ⟨what, he⟩) (.inr (.inl htype))
  | integer =>
    unfold Inapplicable
    rw [apply_integer op rhs htype, htype]
    simp only [reduceCtorEq, false_or]
    by_cases hzero : op = .divide ∧ rhs.integer = 0
    · rw [if_pos hzero]
      exact iff_of_true (.inr ⟨_, rfl⟩) hzero
    · rw [if_neg hzero]
      refine iff_of_false ?_ hzero
      -- a value or an overflow
      unfold Rejected integerResult
      split <;> simp
  | decimal =>
    unfold Inapplicable
    rw [htype]
    simp only [reduceCtorEq, false_or]
    rcases apply_decimal op rhs htype with ⟨hop, hzero, he⟩ | ⟨hzero, d, he⟩
    · rw [he]
      exact iff_of_true (.inr ⟨_, rfl⟩) ⟨hop, hzero⟩
    · rw [he]
      refine iff_of_false ?_ hzero
      simp [Rejected, decimalResult]

namespace LogicalExpr

/-- `evaluate` of the tree applies the operator to the operands. -/
inductive Applies (row : List UInt8) (table : Table) :
    LogicalExpr → StaleBytes → BinaryOpType → Operand → Operand → Prop
  | root {l r : LogicalExpr} {op : BinaryOpType} {stale : StaleBytes} {lhs rhs : PrimitiveValue}
      (hl : l.evaluate row table (stale.child 0) = .ok lhs) (hr : r.evaluate row table (stale.child 1) = .ok rhs) :
      Applies row table (binary l r op) stale op ⟨lhs, stale [0]⟩ ⟨rhs, stale [1]⟩
  | left {l r : LogicalExpr} {op op' : BinaryOpType} {stale : StaleBytes} {lhs rhs : Operand}
      (h : Applies row table l (stale.child 0) op lhs rhs) : Applies row table (binary l r op') stale op lhs rhs
  | right {l r : LogicalExpr} {op op' : BinaryOpType} {stale : StaleBytes} {v : PrimitiveValue} {lhs rhs : Operand}
      (hl : l.evaluate row table (stale.child 0) = .ok v) (h : Applies row table r (stale.child 1) op lhs rhs) :
      Applies row table (binary l r op') stale op lhs rhs

variable {row : List UInt8} {table : Table} {stale : StaleBytes} {e : LogicalExpr} {op : BinaryOpType}
  {lhs rhs : Operand}

/-- An operator that fails ends the evaluation. -/
theorem evaluate_of_applies {err : SqlError} (h : e.Applies row table stale op lhs rhs)
    (herr : op.apply lhs rhs = .error err) : e.evaluate row table stale = .error err := by
  induction h with
  | root hl hr => rw [evaluate_binary hl hr, herr]
  | left h ih => exact evaluate_binary_left (ih herr)
  | right hl h ih => exact evaluate_binary_right hl (ih herr)

/-- Operands of different types are rejected: the operator that is applied to them and the evaluation of the tree are
stopped. -/
def RejectsMismatches (row : List UInt8) (table : Table) (e : LogicalExpr) (stale : StaleBytes) : Prop :=
  ∀ op lhs rhs, e.Applies row table stale op lhs rhs → lhs.type ≠ rhs.type →
    Rejected (op.apply lhs rhs) ∧ Rejected (e.evaluate row table stale)

/-- Only an operator that would reject operands of one type as well rejects those of different types. -/
theorem rejectsMismatches_iff (row : List UInt8) (table : Table) (e : LogicalExpr) (stale : StaleBytes) :
    e.RejectsMismatches row table stale ↔
      ∀ op lhs rhs, e.Applies row table stale op lhs rhs → lhs.type ≠ rhs.type → Inapplicable op lhs rhs := by
  constructor
  · intro h op lhs rhs happlies hne
    exact (rejected_apply_iff op lhs rhs).mp (h op lhs rhs happlies hne).1
  · intro h op lhs rhs happlies hne
    have hrejected := (rejected_apply_iff op lhs rhs).mpr (h op lhs rhs happlies hne)
    refine ⟨hrejected, ?_⟩
    rcases hrejected with herr | ⟨what, herr⟩
    · exact .inl (evaluate_of_applies happlies herr)
    · exact .inr ⟨what, evaluate_of_applies happlies herr⟩

end LogicalExpr

/-- `1 + 2.5`. -/
def integerPlusDecimal : LogicalExpr :=
  .binary (.constant ⟨.integer, .integer 1, none⟩)
    (.constant ⟨.decimal, .decimal (decodeDouble [0, 0, 0, 0, 0, 0, 4, 64]), none⟩) .add

/-- The four bytes of 2.5 that are read are zero. -/
theorem rejectsMismatches_fails :
    (∀ row table stale, integerPlusDecimal.evaluate row table stale = .ok ⟨.integer, .integer 1, none⟩) ∧
      ∀ row table stale, ¬ integerPlusDecimal.RejectsMismatches row table stale := by
  have hrun : ∀ row table stale,
      integerPlusDecimal.evaluate row table stale = .ok ⟨.integer, .integer 1, none⟩ := by
    intro row table stale
    have hread : (⟨⟨.decimal, .decimal (decodeDouble [0, 0, 0, 0, 0, 0, 4, 64]), none⟩, stale [1]⟩ : Operand).integer =
      0 := rfl
    rw [integerPlusDecimal, evaluate_binary rfl rfl, apply_integer _ _ rfl, hread, Operand.integer_of_set rfl]
    rfl
  refine ⟨hrun, fun row table stale h => ?_⟩
  have happlies : integerPlusDecimal.Applies row table stale .add
      ⟨⟨.integer, .integer 1, none⟩, stale [0]⟩
      ⟨⟨.decimal, .decimal (decodeDouble [0, 0, 0, 0, 0, 0, 4, 64]), none⟩, stale [1]⟩ := .root rfl rfl
  obtain ⟨-, hrejected⟩ := h _ _ _ happlies (by simp)
  rw [hrun] at hrejected
  rcases hrejected with h | ⟨what, h⟩ <;> cases h

end SomeDB
