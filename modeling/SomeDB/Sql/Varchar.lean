import Mathlib.Data.Set.Defs
import SomeDB.Sql.PrimitiveOps

/-!
# Comparing strings (`primitive.hpp`, `primitive.cpp`)

The comparisons of `VarcharPrimitiveType` compare the pointers to the characters. Among the strings of a set the answers
are those for the contents if and only if the strings stand in memory in the order of their contents, and equal ones at
one address (`contentsOnly_iff`).
-/

namespace SomeDB

open Lib

/-- `CmpState`. -/
inductive CmpState where
  | sqlTrue
  | sqlFalse
  deriving DecidableEq, Repr

/-- `p ? SQL_TRUE : SQL_FALSE`. -/
def CmpState.of (p : Prop) [Decidable p] : CmpState := if p then .sqlTrue else .sqlFalse

theorem CmpState.of_eq_of {p q : Prop} [Decidable p] [Decidable q] : CmpState.of p = CmpState.of q ↔ (p ↔ q) := by
  unfold CmpState.of
  by_cases hp : p <;> by_cases hq : q <;> simp [hp, hq]

/-- `VarcharPrimitiveType::equals`. -/
def varcharEquals (l r : Operand) : Except SqlError CmpState := do
  ColumnType.string.assertTypesEqual l r
  .ok (CmpState.of (l.string = r.string))

/-- `VarcharPrimitiveType::notEquals`. -/
def varcharNotEquals (l r : Operand) : Except SqlError CmpState := do
  ColumnType.string.assertTypesEqual l r
  .ok (CmpState.of (l.string ≠ r.string))

/-- `VarcharPrimitiveType::greaterThan`. -/
def varcharGreaterThan (l r : Operand) : Except SqlError CmpState := do
  ColumnType.string.assertTypesEqual l r
  .ok (CmpState.of (l.string > r.string))

/-- `VarcharPrimitiveType::lessThan`. -/
def varcharLessThan (l r : Operand) : Except SqlError CmpState := do
  ColumnType.string.assertTypesEqual l r
  .ok (CmpState.of (l.string < r.string))

/-- A value of type STRING with its characters at the address `ptr`. -/
structure StringValue where
  ptr : Nat
  chars : List UInt8
  stale : Block 8
  ptr_lt : ptr < 2 ^ 64
  length_lt : chars.length < 2 ^ 16

namespace StringValue

/-- The value that the constructor of `PrimitiveValue` makes of the pointer and the length. -/
def operand (s : StringValue) : Operand :=
  ⟨⟨.string, .string s.ptr s.chars, some (UInt16.ofNat s.chars.length)⟩, s.stale⟩

/-- The answers for the contents: equality and the lexicographic order. -/
structure ComparesContents (l r : StringValue) : Prop where
  equals : varcharEquals l.operand r.operand = .ok (CmpState.of (l.chars = r.chars))
  notEquals : varcharNotEquals l.operand r.operand = .ok (CmpState.of (l.chars ≠ r.chars))
  lessThan : varcharLessThan l.operand r.operand = .ok (CmpState.of (l.chars < r.chars))
  greaterThan : varcharGreaterThan l.operand r.operand = .ok (CmpState.of (r.chars < l.chars))

/-- Exactly one of `lessThan`, `equals` and `greaterThan` holds. -/
def OneHolds (l r : StringValue) : Prop :=
  [varcharLessThan l.operand r.operand, varcharEquals l.operand r.operand,
    varcharGreaterThan l.operand r.operand].count (.ok .sqlTrue) = 1

/-- The answers are the same for the other two strings. -/
def SameAnswers (l r l' r' : StringValue) : Prop :=
  varcharEquals l'.operand r'.operand = varcharEquals l.operand r.operand ∧
    varcharNotEquals l'.operand r'.operand = varcharNotEquals l.operand r.operand ∧
    varcharLessThan l'.operand r'.operand = varcharLessThan l.operand r.operand ∧
    varcharGreaterThan l'.operand r'.operand = varcharGreaterThan l.operand r.operand

/-- Among these values the comparison depends on the contents only. A copy has the same contents at any address. -/
def ContentsOnly (values : Set StringValue) : Prop :=
  ∀ l ∈ values, ∀ r ∈ values, ComparesContents l r ∧ OneHolds l r ∧
    ∀ l' ∈ values, ∀ r' ∈ values, l'.chars = l.chars → r'.chars = r.chars → SameAnswers l r l' r'

/-- The values stand in memory in the order of their contents, and equal ones at one address. -/
def PlacedInOrder (values : Set StringValue) : Prop :=
  ∀ l ∈ values, ∀ r ∈ values, (l.ptr = r.ptr ↔ l.chars = r.chars) ∧ (l.ptr < r.ptr ↔ l.chars < r.chars)

variable {l r l' r' : StringValue} {values : Set StringValue}

@[simp] theorem operand_string (s : StringValue) : s.operand.string = s.ptr := Operand.string_of_set rfl s.ptr_lt

/-- The comparisons compare the pointers. -/
theorem varcharEquals_operand (l r : StringValue) :
    varcharEquals l.operand r.operand = .ok (CmpState.of (l.ptr = r.ptr)) := by
  unfold varcharEquals
  simp only [ColumnType.assertTypesEqual_bind, operand_string]

theorem varcharNotEquals_operand (l r : StringValue) :
    varcharNotEquals l.operand r.operand = .ok (CmpState.of (l.ptr ≠ r.ptr)) := by
  unfold varcharNotEquals
  simp only [ColumnType.assertTypesEqual_bind, operand_string]

theorem varcharLessThan_operand (l r : StringValue) :
    varcharLessThan l.operand r.operand = .ok (CmpState.of (l.ptr < r.ptr)) := by
  unfold varcharLessThan
  simp only [ColumnType.assertTypesEqual_bind, operand_string]

theorem varcharGreaterThan_operand (l r : StringValue) :
    varcharGreaterThan l.operand r.operand = .ok (CmpState.of (r.ptr < l.ptr)) := by
  unfold varcharGreaterThan
  simp only [ColumnType.assertTypesEqual_bind, operand_string, gt_iff_lt]

theorem comparesContents_iff (l r : StringValue) :
    ComparesContents l r ↔ (l.ptr = r.ptr ↔ l.chars = r.chars) ∧ (l.ptr < r.ptr ↔ l.chars < r.chars) ∧
      (r.ptr < l.ptr ↔ r.chars < l.chars) := by
  constructor
  · intro h
    have heq := h.equals
    have hlt := h.lessThan
    have hgt := h.greaterThan
    rw [varcharEquals_operand, Except.ok.injEq, CmpState.of_eq_of] at heq
    rw [varcharLessThan_operand, Except.ok.injEq, CmpState.of_eq_of] at hlt
    rw [varcharGreaterThan_operand, Except.ok.injEq, CmpState.of_eq_of] at hgt
    exact ⟨heq, hlt, hgt⟩
  · rintro ⟨heq, hlt, hgt⟩
    refine ⟨?_, ?_, ?_, ?_⟩
    · rw [varcharEquals_operand, Except.ok.injEq, CmpState.of_eq_of, heq]
    · rw [varcharNotEquals_operand, Except.ok.injEq, CmpState.of_eq_of, ne_eq, ne_eq, heq]
    · rw [varcharLessThan_operand, Except.ok.injEq, CmpState.of_eq_of, hlt]
    · rw [varcharGreaterThan_operand, Except.ok.injEq, CmpState.of_eq_of, hgt]

/-- Of two addresses one is lower or they are the same. -/
theorem oneHolds (l r : StringValue) : OneHolds l r := by
  unfold OneHolds
  rw [varcharLessThan_operand, varcharEquals_operand, varcharGreaterThan_operand]
  unfold CmpState.of
  rcases Nat.lt_trichotomy l.ptr r.ptr with h | h | h
  · rw [if_pos h, if_neg (Nat.ne_of_lt h), if_neg (Nat.lt_asymm h)]
    rfl
  · rw [if_neg (Nat.not_lt.mpr (Nat.le_of_eq h.symm)), if_pos h, if_neg (Nat.not_lt.mpr (Nat.le_of_eq h))]
    rfl
  · rw [if_neg (Nat.lt_asymm h), if_neg (Nat.ne_of_gt h), if_pos h]
    rfl

/-- Answers for the contents are the same for the same contents. -/
theorem ComparesContents.sameAnswers (h : ComparesContents l r) (h' : ComparesContents l' r')
    (hl : l'.chars = l.chars) (hr : r'.chars = r.chars) : SameAnswers l r l' r' := by
  refine ⟨?_, ?_, ?_, ?_⟩
  · rw [h'.equals, h.equals, Except.ok.injEq, CmpState.of_eq_of, hl, hr]
  · rw [h'.notEquals, h.notEquals, Except.ok.injEq, CmpState.of_eq_of, hl, hr]
  · rw [h'.lessThan, h.lessThan, Except.ok.injEq, CmpState.of_eq_of, hl, hr]
  · rw [h'.greaterThan, h.greaterThan, Except.ok.injEq, CmpState.of_eq_of, hl, hr]

/-- The comparison depends on the contents only just if the values are placed in the order of their contents. -/
theorem contentsOnly_iff (values : Set StringValue) : ContentsOnly values ↔ PlacedInOrder values := by
  constructor
  · intro h l hl r hr
    obtain ⟨heq, hlt, -⟩ := (comparesContents_iff l r).mp (h l hl r hr).1
    exact ⟨heq, hlt⟩
  · intro h
    have hcompares : ∀ l ∈ values, ∀ r ∈ values, ComparesContents l r := by
      intro l hl r hr
      exact (comparesContents_iff l r).mpr ⟨(h l hl r hr).1, (h l hl r hr).2, (h r hr l hl).2⟩
    intro l hl r hr
    refine ⟨hcompares l hl r hr, oneHolds l r, fun l' hl' r' hr' hcl hcr => ?_⟩
    exact (hcompares l hl r hr).sameAnswers (hcompares l' hl' r' hr') hcl hcr

end StringValue

/-- `ab` at an address. -/
def abAt (ptr : Nat) (h : ptr < 2 ^ 64) : StringValue := ⟨ptr, [97, 98], Block.zero, h, by decide⟩

/-- Two buffers with `ab`. -/
theorem contentsOnly_fails :
    varcharEquals (abAt 4096 (by decide)).operand (abAt 8192 (by decide)).operand = .ok .sqlFalse ∧
      varcharLessThan (abAt 4096 (by decide)).operand (abAt 8192 (by decide)).operand = .ok .sqlTrue ∧
      ¬ StringValue.ContentsOnly Set.univ := by
  refine ⟨?_, ?_, fun h => ?_⟩
  · rw [StringValue.varcharEquals_operand]
    rfl
  · rw [StringValue.varcharLessThan_operand]
    rfl
  · have hcompares := (h (abAt 4096 (by decide)) trivial (abAt 8192 (by decide)) trivial).1
    have heq := ((StringValue.comparesContents_iff _ _).mp hcompares).1
    exact absurd (heq.mpr rfl) (by decide)

end SomeDB
