import SomeDB.Lib.OpTree
import SomeDB.Sql.LogicalExpr

/-!
# Expressions of INTEGER constants

A tree of INTEGER constants has a value in the integers, unless something is divided by zero. Its evaluation throws at
the first division by zero, and nothing checks that the other results are `int`s: the evaluation is exact or throws if
and only if each operator that it comes to has a result in range (`exactOrThrows_iff`).
-/

namespace SomeDB

open Lib

/-- A tree of INTEGER constants. -/
abbrev IntTree := OpTree Int32 BinaryOpType

namespace IntTree

/-- The tree as the code has it. -/
def expr : IntTree → LogicalExpr
  | .leaf i => .constant ⟨.integer, .integer i, none⟩
  | .node l op r => .binary (expr l) (expr r) op

/-- The value in the integers, unless there is a division by zero. -/
def value : IntTree → Option Int
  | .leaf i => some i.toInt
  | .node l op r => do
    let a ← value l
    let b ← value r
    if op = .divide ∧ b = 0 then none else some (op.exact a b)

/-- The tree and the trees in it. -/
def subtrees : IntTree → List IntTree
  | .leaf i => [.leaf i]
  | .node l op r => .node l op r :: (subtrees l ++ subtrees r)

/-- The evaluation throws, or it returns the value in the integers and all that it computed on the way is in range. -/
def ExactOrThrows (row : List UInt8) (table : Table) (stale : StaleBytes) (t : IntTree) : Prop :=
  (∃ what, (expr t).evaluate row table stale = .error (.runtimeError what)) ∨
    ∃ i, (expr t).evaluate row table stale = .ok ⟨.integer, .integer i, none⟩ ∧ value t = some i.toInt ∧
      ∀ s ∈ subtrees t, ∃ c, value s = some c ∧ InRange c

/-- The exact result of each operator is in range, in the order of the evaluation and up to the first division by
zero. -/
def Fits : IntTree → Prop
  | .leaf _ => True
  | .node l op r => Fits l ∧ ∀ a, value l = some a →
    Fits r ∧ ∀ b, value r = some b → ¬ (op = .divide ∧ b = 0) → InRange (op.exact a b)

variable {row : List UInt8} {table : Table} {stale : StaleBytes} {t l r : IntTree} {op : BinaryOpType} {a b : Int}

theorem value_node (ha : value l = some a) (hb : value r = some b) :
    value (.node l op r) = if op = .divide ∧ b = 0 then none else some (op.exact a b) := by
  unfold value
  rw [ha, hb]
  rfl

/-- An operator on two integers. -/
theorem evaluate_node {i j : Int32}
    (hl : (expr l).evaluate row table (stale.child 0) = .ok ⟨.integer, .integer i, none⟩)
    (hr : (expr r).evaluate row table (stale.child 1) = .ok ⟨.integer, .integer j, none⟩) :
    (expr (.node l op r)).evaluate row table stale =
      if op = .divide ∧ j = 0 then .error (dividedByZero "An integer value" (toString i.toInt))
      else integerResult (op.exact i.toInt j.toInt) := by
  have hi : (⟨⟨.integer, .integer i, none⟩, stale [0]⟩ : Operand).integer = i := Operand.integer_of_set rfl
  have hj : (⟨⟨.integer, .integer j, none⟩, stale [1]⟩ : Operand).integer = j := Operand.integer_of_set rfl
  rw [expr, LogicalExpr.evaluate_binary hl hr, apply_integer op _ rfl, hi, hj]

theorem toInt_eq_zero {i : Int32} : i.toInt = 0 ↔ i = 0 := Int32.toInt_inj (y := 0)

/-- As long as the results are in range, the evaluation throws at a division by zero and is exact otherwise. -/
theorem evaluate_of_fits (row : List UInt8) (table : Table) (stale : StaleBytes) (h : Fits t) :
    (value t = none ∧ ∃ what, (expr t).evaluate row table stale = .error (.runtimeError what)) ∨
      ∃ i, (expr t).evaluate row table stale = .ok ⟨.integer, .integer i, none⟩ ∧ value t = some i.toInt := by
  induction t generalizing stale with
  | leaf i => exact .inr ⟨i, rfl, rfl⟩
  | node l op r ihl ihr =>
    obtain ⟨hl, hrest⟩ := h
    rcases ihl (stale.child 0) hl with ⟨hnone, what, hthrow⟩ | ⟨i, hi, hvi⟩
    · refine .inl ⟨?_, what, LogicalExpr.evaluate_binary_left hthrow⟩
      unfold value
      rw [hnone]
      rfl
    · obtain ⟨hr, hop⟩ := hrest _ hvi
      rcases ihr (stale.child 1) hr with ⟨hnone, what, hthrow⟩ | ⟨j, hj, hvj⟩
      · refine .inl ⟨?_, what, LogicalExpr.evaluate_binary_right hi hthrow⟩
        unfold value
        rw [hvi, hnone]
        rfl
      · rw [evaluate_node hi hj, value_node hvi hvj]
        have hdiv : op = .divide ∧ j.toInt = 0 ↔ op = .divide ∧ j = 0 := by rw [toInt_eq_zero]
        by_cases hzero : op = .divide ∧ j = 0
        · rw [if_pos hzero, if_pos (hdiv.mpr hzero)]
          exact .inl ⟨rfl, _, rfl⟩
        · rw [if_neg hzero, if_neg fun h => hzero (hdiv.mp h)]
          obtain ⟨k, hk, hkval⟩ := integerResult_ok (hop _ hvj fun h => hzero (hdiv.mp h))
          exact .inr ⟨k, hk, by rw [hkval]⟩

theorem evaluate_of_value (row : List UInt8) (table : Table) (stale : StaleBytes) (h : Fits t) (ha : value t = some a) :
    ∃ i : Int32, (expr t).evaluate row table stale = .ok ⟨.integer, .integer i, none⟩ ∧ i.toInt = a := by
  rcases evaluate_of_fits row table stale h with ⟨hnone, -⟩ | ⟨i, hi, hval⟩
  · cases hnone.symm.trans ha
  · exact ⟨i, hi, Option.some.inj (hval.symm.trans ha)⟩

/-- The first result that is not in range, in the order of the evaluation. -/
theorem not_fits_node (h : ¬ Fits (.node l op r)) :
    ¬ Fits l ∨ ∃ a, Fits l ∧ value l = some a ∧ (¬ Fits r ∨
      ∃ b, Fits r ∧ value r = some b ∧ ¬ (op = .divide ∧ b = 0) ∧ ¬ InRange (op.exact a b)) := by
  by_contra hno
  rw [not_or, not_not] at hno
  obtain ⟨hl, hno⟩ := hno
  refine h ⟨hl, fun a ha => ?_⟩
  have hr : Fits r := by_contra fun hr => hno ⟨a, hl, ha, .inl hr⟩
  refine ⟨hr, fun b hb hzero => ?_⟩
  exact by_contra fun hout => hno ⟨a, hl, ha, .inr ⟨b, hr, hb, hzero, hout⟩⟩

/-- At the first result that is not in range the evaluation is undefined. -/
theorem evaluate_of_not_fits (row : List UInt8) (table : Table) (stale : StaleBytes) (h : ¬ Fits t) :
    (expr t).evaluate row table stale = .error (.fault .overflow) := by
  induction t generalizing stale with
  | leaf i => exact absurd trivial h
  | node l op r ihl ihr =>
    rcases not_fits_node h with hl | ⟨a, hl, ha, hrest⟩
    · exact LogicalExpr.evaluate_binary_left (ihl _ hl)
    · obtain ⟨i, hi, rfl⟩ := evaluate_of_value row table (stale.child 0) hl ha
      rcases hrest with hr | ⟨b, hr, hb, hzero, hout⟩
      · exact LogicalExpr.evaluate_binary_right hi (ihr _ hr)
      · obtain ⟨j, hj, rfl⟩ := evaluate_of_value row table (stale.child 1) hr hb
        rw [toInt_eq_zero] at hzero
        rw [evaluate_node hi hj, if_neg hzero]
        exact if_neg hout

/-- If a tree in range has a value, all trees in it have one in range. -/
theorem subtrees_inRange {c : Int} (h : Fits t) (hc : value t = some c) :
    ∀ s ∈ subtrees t, ∃ d, value s = some d ∧ InRange d := by
  induction t generalizing c with
  | leaf i =>
    intro s hs
    rw [List.mem_singleton.mp hs]
    exact ⟨_, rfl, inRange_toInt i⟩
  | node l op r ihl ihr =>
    obtain ⟨hl, hrest⟩ := h
    have hc' := hc
    unfold value at hc'
    obtain ⟨a, ha, hc'⟩ := Option.bind_eq_some_iff.mp hc'
    obtain ⟨b, hb, hc'⟩ := Option.bind_eq_some_iff.mp hc'
    obtain ⟨hr, hop⟩ := hrest a ha
    intro s hs
    rcases List.mem_cons.mp hs with rfl | hs
    · split at hc'
      · cases hc'
      · next hzero =>
        cases hc'
        exact ⟨_, hc, hop b hb hzero⟩
    · rcases List.mem_append.mp hs with hs | hs
      · exact ihl hl ha s hs
      · exact ihr hr hb s hs

/-- An evaluation that is undefined neither throws nor returns. -/
theorem not_exactOrThrows (row : List UInt8) (table : Table) (stale : StaleBytes) (h : ¬ Fits t) :
    ¬ ExactOrThrows row table stale t := by
  have hrun := evaluate_of_not_fits row table stale h
  rintro (⟨what, hthrow⟩ | ⟨i, hi, -⟩)
  · cases hrun.symm.trans hthrow
  · cases hrun.symm.trans hi

/-- The evaluation is exact or throws just if each result that it comes to is in range. -/
theorem exactOrThrows_iff (row : List UInt8) (table : Table) (stale : StaleBytes) (t : IntTree) :
    ExactOrThrows row table stale t ↔ Fits t := by
  constructor
  · intro h
    by_contra hfits
    exact not_exactOrThrows row table stale hfits h
  · intro h
    rcases evaluate_of_fits row table stale h with ⟨-, hthrow⟩ | ⟨i, hi, hval⟩
    · exact .inl hthrow
    · exact .inr ⟨i, hi, hval, subtrees_inRange h hval⟩

end IntTree

/-- `2147483647 + 1`. -/
def maxPlusOne : IntTree := .node (.leaf 2147483647) .add (.leaf 1)

/-- `-2147483648 / -1`. -/
def minByMinusOne : IntTree := .node (.leaf (-2147483648)) .divide (.leaf (-1))

/-- Neither sum nor quotient is an `int`. -/
theorem exactOrThrows_fails :
    (∀ row table stale, ¬ IntTree.ExactOrThrows row table stale maxPlusOne) ∧
      ∀ row table stale, ¬ IntTree.ExactOrThrows row table stale minByMinusOne := by
  refine ⟨fun row table stale => IntTree.not_exactOrThrows row table stale fun hfits => ?_,
    fun row table stale => IntTree.not_exactOrThrows row table stale fun hfits => ?_⟩
  · have hsum := (hfits.2 _ rfl).2 _ rfl (by decide)
    exact absurd hsum (by decide)
  · have hquotient := (hfits.2 _ rfl).2 _ rfl (by decide)
    exact absurd hquotient (by decide)

end SomeDB
