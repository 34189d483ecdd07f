import SomeDB.Sql.TableRows
import SomeDB.Sql.Varchar

/-!
# Comparing the values of rows (`primitive.hpp`, `primitive.cpp`)

The comparisons of BOOLEAN, INTEGER and DECIMAL read the member of their type, as the operators do. On values of the
type they compare what was set, whatever else is in the memory of the union (`Comparison.compare_primitive`), so that
the columns of two rows compare as the values that were added (`tableRows_compare`).
-/

namespace SomeDB

open Lib

/-- `value.boolean`. A byte that is neither 0 nor 1 is no `bool`; the comparisons are of values that have one. -/
def Operand.boolean (o : Operand) : Bool := o.union.byte 0 ≠ 0

section

variable (p : Operand → Operand → Bool) (l r : Operand)

/-- A comparison of the members that were read. -/
def compareBy (t : ColumnType) : Except SqlError CmpState := do
  t.assertTypesEqual l r
  .ok (CmpState.of (p l r = true))

theorem compareBy_ok (t : ColumnType) : compareBy p l r t = .ok (CmpState.of (p l r = true)) := by
  unfold compareBy
  exact ColumnType.assertTypesEqual_bind t l r _

/-- `BooleanPrimitiveType::equals`. -/
def booleanEquals : Except SqlError CmpState := compareBy (fun l r => l.boolean = r.boolean) l r .boolean

/-- `BooleanPrimitiveType::notEquals`. -/
def booleanNotEquals : Except SqlError CmpState := compareBy (fun l r => l.boolean ≠ r.boolean) l r .boolean

/-- `BooleanPrimitiveType::greaterThan`. -/
def booleanGreaterThan : Except SqlError CmpState :=
  compareBy (fun l r => l.boolean = true ∧ r.boolean = false) l r .boolean

/-- `BooleanPrimitiveType::lessThan`. -/
def booleanLessThan : Except SqlError CmpState :=
  compareBy (fun l r => l.boolean = false ∧ r.boolean = true) l r .boolean

/-- `IntegerPrimitiveType::equals`. -/
def integerEquals : Except SqlError CmpState := compareBy (fun l r => l.integer = r.integer) l r .integer

/-- `IntegerPrimitiveType::notEquals`. -/
def integerNotEquals : Except SqlError CmpState := compareBy (fun l r => l.integer ≠ r.integer) l r .integer

/-- `IntegerPrimitiveType::greaterThan`. -/
def integerGreaterThan : Except SqlError CmpState := compareBy (fun l r => l.integer > r.integer) l r .integer

/-- `IntegerPrimitiveType::lessThan`. -/
def integerLessThan : Except SqlError CmpState := compareBy (fun l r => l.integer < r.integer) l r .integer

/-- `DecimalPrimitiveType::equals`. -/
def decimalEquals : Except SqlError CmpState := compareBy (fun l r => l.decimal == r.decimal) l r .decimal

/-- `DecimalPrimitiveType::notEquals`. -/
def decimalNotEquals : Except SqlError CmpState := compareBy (fun l r => l.decimal != r.decimal) l r .decimal

/-- `DecimalPrimitiveType::greaterThan`. -/
def decimalGreaterThan : Except SqlError CmpState := compareBy (fun l r => l.decimal > r.decimal) l r .decimal

/-- `DecimalPrimitiveType::lessThan`. -/
def decimalLessThan : Except SqlError CmpState := compareBy (fun l r => l.decimal < r.decimal) l r .decimal

end

/-! ## The virtual functions -/

namespace ColumnType

/-- `equals` of the type. -/
def equals (this : ColumnType) (l r : Operand) : Except SqlError CmpState :=
  match this with
  | .boolean => booleanEquals l r
  | .string => varcharEquals l r
  | .integer => integerEquals l r
  | .decimal => decimalEquals l r

/-- `notEquals` of the type. -/
def notEquals (this : ColumnType) (l r : Operand) : Except SqlError CmpState :=
  match this with
  | .boolean => booleanNotEquals l r
  | .string => varcharNotEquals l r
  | .integer => integerNotEquals l r
  | .decimal => decimalNotEquals l r

/-- `greaterThan` of the type. -/
def greaterThan (this : ColumnType) (l r : Operand) : Except SqlError CmpState :=
  match this with
  | .boolean => booleanGreaterThan l r
  | .string => varcharGreaterThan l r
  | .integer => integerGreaterThan l r
  | .decimal => decimalGreaterThan l r

/-- `lessThan` of the type. -/
def lessThan (this : ColumnType) (l r : Operand) : Except SqlError CmpState :=
  match this with
  | .boolean => booleanLessThan l r
  | .string => varcharLessThan l r
  | .integer => integerLessThan l r
  | .decimal => decimalLessThan l r

end ColumnType

/-- The comparisons of a type. -/
inductive Comparison where
  | equals
  | notEquals
  | greaterThan
  | lessThan
  deriving DecidableEq, Repr

/-- The virtual function. -/
def Comparison.compare : Comparison → ColumnType → Operand → Operand → Except SqlError CmpState
  | .equals => ColumnType.equals
  | .notEquals => ColumnType.notEquals
  | .greaterThan => ColumnType.greaterThan
  | .lessThan => ColumnType.lessThan

/-! ## Values -/

/-- The number with the bytes of a decimal. -/
def doubleOf (d : Block 8) : Float := Float.ofBits (UInt64.ofNat (ofLittleEndian (d.slice 0 8)))

namespace ColumnValue

/-- The values are of one type and the same. -/
def same : ColumnValue → ColumnValue → Bool
  | .boolean b, .boolean c => decide (b ≠ 0) == decide (c ≠ 0)
  | .integer i, .integer j => i.toInt = j.toInt
  | .decimal d, .decimal e => doubleOf d == doubleOf e
  | _, _ => false

/-- The values are of one type and the first one is lower. -/
def below : ColumnValue → ColumnValue → Bool
  | .boolean b, .boolean c => b = 0 ∧ c ≠ 0
  | .integer i, .integer j => i.toInt < j.toInt
  | .decimal d, .decimal e => doubleOf d < doubleOf e
  | _, _ => false

end ColumnValue

/-- The answer for the values. -/
def Comparison.holds : Comparison → ColumnValue → ColumnValue → Bool
  | .equals, v, w => v.same w
  | .notEquals, v, w => !v.same w
  | .greaterThan, v, w => w.below v
  | .lessThan, v, w => v.below w

namespace Operand

variable {o : Operand}

/-- The member that was set is read as it was set. -/
theorem boolean_of_set {b : Bool} (h : o.value.value = .boolean b) : o.boolean = b := by
  have hslice : o.union.slice 0 1 = [if b then 1 else 0] := by
    unfold union
    rw [h]
    exact Block.slice_blit_of_length _ rfl (by decide)
  have hbyte : o.union.byte 0 = if b then 1 else 0 := by
    rw [Block.slice_one] at hslice
    exact List.singleton_inj.mp hslice
  unfold boolean
  rw [hbyte]
  cases b <;> rfl

theorem decimal_of_set {d : Block 8} (h : o.value.value = .decimal d) : o.decimal = doubleOf d := by
  have hslice : o.union.slice 0 8 = d.slice 0 8 := by
    unfold union
    rw [h]
    exact Block.slice_blit_of_length _ (Block.slice_length ..) (by decide)
  rw [decimal, hslice, doubleOf]

end Operand

/-! ## The answers -/

namespace Comparison

variable (cmp : Comparison) (stale stale' : Block 8)

theorem compare_boolean (b c : UInt8) :
    cmp.compare .boolean ⟨(ColumnValue.boolean b).primitive, stale⟩ ⟨(ColumnValue.boolean c).primitive, stale'⟩ =
      .ok (CmpState.of (cmp.holds (.boolean b) (.boolean c) = true)) := by
  have hl := Operand.boolean_of_set (o := ⟨(ColumnValue.boolean b).primitive, stale⟩) rfl
  have hr := Operand.boolean_of_set (o := ⟨(ColumnValue.boolean c).primitive, stale'⟩) rfl
  cases cmp with
  | equals =>
    simp only [compare, ColumnType.equals, booleanEquals, compareBy_ok, hl, hr, Except.ok.injEq, CmpState.of_eq_of]
    simp [holds, ColumnValue.same]
  | notEquals =>
    simp only [compare, ColumnType.notEquals, booleanNotEquals, compareBy_ok, hl, hr, Except.ok.injEq,
      CmpState.of_eq_of]
    simp [holds, ColumnValue.same]
  | greaterThan =>
    simp only [compare, ColumnType.greaterThan, booleanGreaterThan, compareBy_ok, hl, hr, Except.ok.injEq,
      CmpState.of_eq_of]
    simp [holds, ColumnValue.below, and_comm]
  | lessThan =>
    simp only [compare, ColumnType.lessThan, booleanLessThan, compareBy_ok, hl, hr, Except.ok.injEq, CmpState.of_eq_of]
    simp [holds, ColumnValue.below]

theorem compare_integer (i j : Int32) :
    cmp.compare .integer ⟨(ColumnValue.integer i).primitive, stale⟩ ⟨(ColumnValue.integer j).primitive, stale'⟩ =
      .ok (CmpState.of (cmp.holds (.integer i) (.integer j) = true)) := by
  have hl := Operand.integer_of_set (o := ⟨(ColumnValue.integer i).primitive, stale⟩) rfl
  have hr := Operand.integer_of_set (o := ⟨(ColumnValue.integer j).primitive, stale'⟩) rfl
  cases cmp with
  | equals =>
    simp only [compare, ColumnType.equals, integerEquals, compareBy_ok, hl, hr, Except.ok.injEq, CmpState.of_eq_of]
    simp [holds, ColumnValue.same, Int32.toInt_inj]
  | notEquals =>
    simp only [compare, ColumnType.notEquals, integerNotEquals, compareBy_ok, hl, hr, Except.ok.injEq,
      CmpState.of_eq_of]
    simp [holds, ColumnValue.same, Int32.toInt_inj]
  | greaterThan =>
    simp only [compare, ColumnType.greaterThan, integerGreaterThan, compareBy_ok, hl, hr, Except.ok.injEq,
      CmpState.of_eq_of]
    simp [holds, ColumnValue.below, Int32.lt_iff_toInt_lt]
  | lessThan =>
    simp only [compare, ColumnType.lessThan, integerLessThan, compareBy_ok, hl, hr, Except.ok.injEq, CmpState.of_eq_of]
    simp [holds, ColumnValue.below, Int32.lt_iff_toInt_lt]

theorem compare_decimal (d e : Block 8) :
    cmp.compare .decimal ⟨(ColumnValue.decimal d).primitive, stale⟩ ⟨(ColumnValue.decimal e).primitive, stale'⟩ =
      .ok (CmpState.of (cmp.holds (.decimal d) (.decimal e) = true)) := by
  have hl := Operand.decimal_of_set (o := ⟨(ColumnValue.decimal d).primitive, stale⟩) rfl
  have hr := Operand.decimal_of_set (o := ⟨(ColumnValue.decimal e).primitive, stale'⟩) rfl
  cases cmp with
  | equals =>
    simp only [compare, ColumnType.equals, decimalEquals, compareBy_ok, hl, hr]
    exact congrArg Except.ok (CmpState.of_eq_of.mpr Iff.rfl)
  | notEquals =>
    simp only [compare, ColumnType.notEquals, decimalNotEquals, compareBy_ok, hl, hr]
    exact congrArg Except.ok (CmpState.of_eq_of.mpr Iff.rfl)
  | greaterThan =>
    simp only [compare, ColumnType.greaterThan, decimalGreaterThan, compareBy_ok, hl, hr]
    exact congrArg Except.ok (CmpState.of_eq_of.mpr Iff.rfl)
  | lessThan =>
    simp only [compare, ColumnType.lessThan, decimalLessThan, compareBy_ok, hl, hr]
    exact congrArg Except.ok (CmpState.of_eq_of.mpr Iff.rfl)

/-- Two values of a type that is not STRING compare as what was set, whatever is in the memory of the unions. -/
theorem compare_primitive {v w : ColumnValue} (htype : w.type = v.type) (hfixed : v.type ≠ .string) :
    cmp.compare v.type ⟨v.primitive, stale⟩ ⟨w.primitive, stale'⟩ = .ok (CmpState.of (cmp.holds v w = true)) := by
  cases v with
  | boolean b =>
    cases w with
    | boolean c => exact cmp.compare_boolean stale stale' b c
    | integer | decimal | string => cases htype
  | integer i =>
    cases w with
    | integer j => exact cmp.compare_integer stale stale' i j
    | boolean | decimal | string => cases htype
  | decimal d =>
    cases w with
    | decimal e => exact cmp.compare_decimal stale stale' d e
    | boolean | integer | string => cases htype
  | string => exact absurd rfl hfixed

end Comparison

/-- Exactly one of `lessThan`, `equals` and `greaterThan` holds of two values that are no decimals. -/
theorem ColumnValue.one_holds {v w : ColumnValue} (htype : w.type = v.type) (hfixed : v.type ≠ .string)
    (hdecimal : v.type ≠ .decimal) : [v.below w, v.same w, w.below v].count true = 1 := by
  cases v with
  | boolean b =>
    cases w with
    | boolean c =>
      unfold below same
      by_cases hb : b = 0 <;> by_cases hc : c = 0 <;> simp [hb, hc]
    | integer | decimal | string => cases htype
  | integer i =>
    cases w with
    | integer j =>
      unfold below same
      rcases Int.lt_trichotomy i.toInt j.toInt with h | h | h
      · simp [h, Int.ne_of_lt h, Int.lt_asymm h]
      · simp [h]
      · simp [h, (Int.ne_of_lt h).symm, Int.lt_asymm h]
    | boolean | decimal | string => cases htype
  | decimal => exact absurd rfl hdecimal
  | string => exact absurd rfl hfixed

/-! ## Rows -/

theorem Conforms.type {columns : Columns} {vs : List ColumnValue} (h : Conforms columns vs) {k : Nat} {c : Column}
    {v : ColumnValue} (hc : columns.1[k]? = some c) (hv : vs[k]? = some v) : v.type = c.type := by
  have htypes := congrArg (·[k]?) h
  simp only [List.getElem?_map, hc, hv, Option.map_some] at htypes
  exact Option.some.inj htypes

/-- **Comparing rows.** On a page that was started in any run on a table, after any run of additions of tuples that
conform to the columns and have room together, and of removals of tuples that were added, the values of a column in the
rows of two tuples that were not removed compare as the values that were added, if the column is stored where it is
read. Unless they are decimals, one of them is lower or they are equal. -/
theorem tableRows_compare {columns : Columns} (halign : SchemaAligned columns)
    (hnames : (columns.1.map (·.name)).Nodup) (hfixed : ∀ c ∈ columns.1, c.type ≠ .string)
    {mem d₀ d₁ d₂ : DiskManager} {u : Unit} {pid : PageId} (hcreate : createTable columns mem = (.ok u, d₀))
    {pre : List HeapOp} (huser : RemovesUser pre) {us : List Unit} (hpre : Prog.runAll heapOp pre d₀ = (.ok us, d₁))
    (hnew : newHeapPage d₁ = (.ok pid, d₂)) {ops : List PageOp} (hremoves : RemovesAdded ops)
    (hconf : ∀ args ∈ added ops, ConformsTo columns args) (hroom : FitTogether ops) (path : CString) :
    ∃ rs d, Prog.runAll (pageOp pid) ops d₂ = (.ok rs, d) ∧
      heapfileSchema path d = (.ok (schemaOf path columns), d) ∧
      ∀ (i j : Nat) (args args' : AddTupleArgs), (added ops)[i]? = some args → (added ops)[j]? = some args' →
        .remove (UInt32.ofNat i) ∉ ops → .remove (UInt32.ofNat j) ∉ ops →
        ∃ page off page' off', getTuple ⟨pid, UInt32.ofNat i⟩ d = (.ok (some (page, off)), d) ∧
          getTuple ⟨pid, UInt32.ofNat j⟩ d = (.ok (some (page', off')), d) ∧
          ∀ (k : Nat) (c : Column) (v w : ColumnValue), columns.1[k]? = some c →
            (AddTupleArgs.values args)[k]? = some v → (AddTupleArgs.values args')[k]? = some w →
            offsetOf columns k = k * c.type.getSize.toNat →
            ∃ l r, getValue (page.slice off (4096 - off)) c.schema (schemaOf path columns) = .ok l ∧
              getValue (page'.slice off' (4096 - off')) c.schema (schemaOf path columns) = .ok r ∧
              (∀ (cmp : Comparison) (stale stale' : Block 8),
                cmp.compare c.type ⟨l, stale⟩ ⟨r, stale'⟩ = .ok (CmpState.of (cmp.holds v w = true))) ∧
              (c.type ≠ .decimal → [v.below w, v.same w, w.below v].count true = 1) := by
  obtain ⟨rs, d, hrun, hschema, hfound⟩ :=
    tableRows_found halign hcreate huser hpre hnew hremoves hconf hroom path
  refine ⟨rs, d, hrun, hschema, fun i j args args' hi hj hlive hlive' => ?_⟩
  obtain ⟨page, off, rest, hget, hrow⟩ := (hfound i args hi).2 hlive
  obtain ⟨page', off', rest', hget', hrow'⟩ := (hfound j args' hj).2 hlive'
  have hvalues := (hconf args (List.mem_of_getElem? hi)).values
  have hvalues' := (hconf args' (List.mem_of_getElem? hj)).values
  refine ⟨page, off, page', off', hget, hget', fun k c v w hc hv hw hoff => ?_⟩
  have htype := hvalues.type hc hv
  have htype' := hvalues'.type hc hw
  have hc' := hfixed c (List.mem_of_getElem? hc)
  rw [hrow, hrow']
  refine ⟨v.primitive, w.primitive, getValue_stored hnames hfixed hvalues path rest hc hv hoff,
    getValue_stored hnames hfixed hvalues' path rest' hc hw hoff, fun cmp stale stale' => ?_, fun hdecimal => ?_⟩
  · rw [← htype]
    exact cmp.compare_primitive stale stale' (htype'.trans htype.symm) (htype ▸ hc')
  · exact ColumnValue.one_holds (htype'.trans htype.symm) (htype ▸ hc') (htype ▸ hdecimal)

/-- Two rows with -1 and 1. -/
theorem tableRows_compare_integers : ∃ d page off page' off' l r,
    getTuple ⟨2, 0⟩ d = (.ok (some (page, off)), d) ∧ getTuple ⟨2, 1⟩ d = (.ok (some (page', off')), d) ∧
    getValue (page.slice off (4096 - off)) ⟨[97], some .integer⟩ (schemaOf ['t'] twoIntegers) = .ok l ∧
    getValue (page'.slice off' (4096 - off')) ⟨[97], some .integer⟩ (schemaOf ['t'] twoIntegers) = .ok r ∧
    ColumnType.integer.lessThan ⟨l, Block.zero⟩ ⟨r, Block.zero⟩ = .ok .sqlTrue := by
  have halign : SchemaAligned twoIntegers := ⟨1, by simp [NamesOfLength, twoIntegers], by decide⟩
  have hremoves : RemovesAdded [.add (integerArgs (-1) 0), .add (integerArgs 1 0)] :=
    (RemovesAdded.nil.add (integerArgs (-1) 0)).add (integerArgs 1 0)
  obtain ⟨d₀, hcreate, hrun, hstate, -⟩ := newPage_state blankMemory
    (show schemaPage twoIntegers = .ok (((Block.zero.blit 0 [2]).blit 1 [1, 97, 3]).blit 4 [1, 98, 3]) from rfl)
  obtain ⟨free, hdir⟩ := hstate.directory
  obtain ⟨rs, d, -, -, hrows⟩ := tableRows_compare halign (by decide) (by decide) hcreate
    (by simp [RemovesUser]) hrun (newHeapPage_ok hdir) hremoves (by decide) (by rw [FitTogether]; decide) ['t']
  obtain ⟨page, off, page', off', hget, hget', hcompare⟩ :=
    hrows 0 1 (integerArgs (-1) 0) (integerArgs 1 0) rfl rfl (by simp) (by simp)
  obtain ⟨l, r, hl, hr, hlt, -⟩ := hcompare 0 ⟨[97], .integer, Column.length_a⟩ (.integer (-1)) (.integer 1) rfl rfl rfl
    rfl
  exact ⟨d, page, off, page', off', l, r, hget, hget', hl, hr, hlt .lessThan Block.zero Block.zero⟩

end SomeDB
