import SomeDB.Sql.TableRows

/-!
# Logical plans (`logical_plan.hpp`, `logical_plan.cpp`)

A plan is a chain of operators over the scan of a table. Each operator has a schema, which it makes of the schema of its
input, and of the columns that its expressions declare; nothing compares the two.

* `plan_schema`: where each column of an expression is one of the input, the columns of every schema are those that the
  table was created with, and every expression has values of the type that it declares.
* `pretty_plan`: `pretty` asks an operator for its children twice and the first time they are moved away, so that it
  prints the first line of a plan and fails on every plan but a scan.
-/

namespace SomeDB

open Lib

/-! ## Texts -/

/-- The `switch` of `BinaryLogicalExpr::toString`. -/
def BinaryOpType.opStr : BinaryOpType → List UInt8
  | .add => ascii "+"
  | .subtract => ascii "-"
  | .multiply => ascii "*"
  | .divide => ascii "/"

/-- `toString` of an expression. A constant gives the text of its type. -/
def LogicalExpr.toString : LogicalExpr → List UInt8
  | constant value => ascii value.type.toString
  | column name _ => ascii "Column: " ++ name
  | binary l r op => l.toString ++ op.opStr ++ r.toString

/-- The characters of a name. -/
def nameBytes (name : CString) : List UInt8 := name.map fun c => UInt8.ofNat c.toNat

/-! ## Comparing schemas -/

/-- `data_type->toString()`. -/
def SchemaColumn.typeText (c : SchemaColumn) : Except Fault String :=
  match c.dataType with
  | none => .error .nullPointer
  | some t => .ok t.toString

/-- `operator==` of two columns. -/
def SchemaColumn.equals (this other : SchemaColumn) : Except Fault Bool :=
  if other.name = this.name then do
    let otherType ← other.typeText
    let type ← this.typeText
    .ok (otherType = type)
  else .ok false

/-- The loop in `operator==` of two tables, which have as many columns. -/
def columnsEqual : List SchemaColumn → List SchemaColumn → Except Fault Bool
  | c :: cs, c' :: cs' =>
    if c.name ≠ c'.name then .ok false
    else do
      let type ← c.typeText
      let otherType ← c'.typeText
      if type ≠ otherType then .ok false else columnsEqual cs cs'
  | _, _ => .ok true

/-- `operator==` of two tables. -/
def Table.equals (this other : Table) : Except Fault Bool :=
  if other.name ≠ this.name ∨ other.columns.length ≠ this.columns.length then .ok false
  else columnsEqual this.columns other.columns

/-- All columns have a type. -/
def HaveTypes (cs : List SchemaColumn) : Prop := ∀ c ∈ cs, c.dataType ≠ none

/-- The text of a type is the same for all types. -/
theorem typeText_ok {c : SchemaColumn} (h : c.dataType ≠ none) : c.typeText = .ok "PKN6somedb13PrimitiveTypeE" := by
  unfold SchemaColumn.typeText
  cases htype : c.dataType with
  | none => exact absurd htype h
  | some t => rfl

theorem SchemaColumn.equals_ok {a b : SchemaColumn} (ha : a.dataType ≠ none) (hb : b.dataType ≠ none) :
    a.equals b = .ok (decide (b.name = a.name)) := by
  unfold SchemaColumn.equals
  by_cases hname : b.name = a.name
  · rw [if_pos hname, typeText_ok ha, typeText_ok hb]
    simp only [bind, Except.bind, decide_true, hname]
  · rw [if_neg hname, decide_eq_false hname]

/-- The comparison of columns that have types sees their names only. -/
theorem columnsEqual_ok {cs cs' : List SchemaColumn} (hlen : cs'.length = cs.length) (h : HaveTypes cs)
    (h' : HaveTypes cs') : columnsEqual cs cs' = .ok (decide (cs.map (·.name) = cs'.map (·.name))) := by
  induction cs generalizing cs' with
  | nil =>
    obtain rfl := List.length_eq_zero_iff.mp hlen
    rfl
  | cons c cs ih =>
    cases cs' with
    | nil => cases hlen
    | cons c' cs' =>
      have htail := ih (Nat.succ.inj hlen) (fun d hd => h d (List.mem_cons_of_mem _ hd))
        fun d hd => h' d (List.mem_cons_of_mem _ hd)
      by_cases hname : c.name = c'.name
      · rw [columnsEqual, if_neg (not_not.mpr hname), typeText_ok (h c List.mem_cons_self),
          typeText_ok (h' c' List.mem_cons_self)]
        simp only [bind, Except.bind, ne_eq, not_true_eq_false, if_false, htail, List.map_cons, List.cons.injEq, hname,
          true_and]
      · rw [columnsEqual, if_pos hname]
        simp [hname]

theorem Table.equals_ok {a b : Table} (ha : HaveTypes a.columns) (hb : HaveTypes b.columns) :
    a.equals b = .ok (decide (a.name = b.name ∧ a.columns.map (·.name) = b.columns.map (·.name))) := by
  unfold Table.equals
  by_cases hdiff : b.name ≠ a.name ∨ b.columns.length ≠ a.columns.length
  · rw [if_pos hdiff]
    have hne : ¬ (a.name = b.name ∧ a.columns.map (·.name) = b.columns.map (·.name)) := by
      rintro ⟨hname, hcols⟩
      rcases hdiff with hdiff | hdiff
      · exact hdiff hname.symm
      · exact hdiff (by simpa using congrArg List.length hcols.symm)
    rw [decide_eq_false hne]
  · rw [if_neg hdiff]
    simp only [not_or, ne_eq, not_not] at hdiff
    rw [columnsEqual_ok hdiff.2 ha hb]
    simp only [hdiff.1, true_and]

/-! ## Operators -/

/-- `ColumnLogicalExpr`, where an operator has one of its own. -/
structure ColumnLogicalExpr where
  name : List UInt8
  returnType : Option ColumnType

namespace ColumnLogicalExpr

/-- The column as an expression. -/
def expr (c : ColumnLogicalExpr) : LogicalExpr := .column c.name c.returnType

/-- The column of a schema that an operator makes of it. -/
def column (c : ColumnLogicalExpr) : SchemaColumn := ⟨c.name, c.returnType⟩

end ColumnLogicalExpr

/-- `AggregateOperator`. -/
inductive AggregateOperator where
  | count
  | avg
  | sum
  | min
  | max
  deriving DecidableEq, Repr

/-- `LogicalOperatorRef`, with the operators that derive from `LogicalOperator`. A reference that was moved away is
null. A scan has a heap file: no other access method can be made. -/
inductive LogicalOperatorRef where
  | null
  | scan (path : CString)
  | selection (input : LogicalOperatorRef) (expr : LogicalExpr)
  | projection (input : LogicalOperatorRef) (projCols : List ColumnLogicalExpr)
  | aggregation (input : LogicalOperatorRef) (aggrCol groupCol : ColumnLogicalExpr) (aggOp : AggregateOperator)

namespace LogicalOperatorRef

/-- `schema`. -/
def schema : LogicalOperatorRef → HeapM Table
  | null => Prog.fault .nullPointer
  | scan path => heapfileSchema path
  | selection input _ => input.schema
  | projection input projCols => do
    let table ← input.schema
    pure ⟨table.name, projCols.map (·.column)⟩
  | aggregation input aggrCol groupCol _ => do
    let table ← input.schema
    pure ⟨table.name, [aggrCol.column, groupCol.column]⟩

/-- `toString`. -/
def toString : LogicalOperatorRef → HeapM (List UInt8)
  | null => Prog.fault .nullPointer
  | scan path => do
    let table ← heapfileSchema path
    pure (ascii "Scan: " ++ nameBytes table.name)
  | selection _ expr => pure (ascii "Select: " ++ expr.toString)
  | projection _ projCols => pure (ascii "Projection: " ++ projCols.flatMap fun col => col.expr.toString ++ ascii "\t")
  | aggregation _ aggrCol groupCol _ =>
    pure (ascii "Aggregate: groupCol: " ++ groupCol.name ++ ascii " aggregateCol: " ++ aggrCol.name)

/-- `children`: the children, and the operator that is left, with its input moved away. -/
def children : LogicalOperatorRef → Except Fault (List LogicalOperatorRef × LogicalOperatorRef)
  | null => .error .nullPointer
  | scan path => .ok ([], scan path)
  | selection input expr => .ok ([input], selection null expr)
  | projection input projCols => .ok ([input], projection null projCols)
  | aggregation input aggrCol groupCol aggOp => .ok ([input], aggregation null aggrCol groupCol aggOp)

/-! ## Schemas -/

/-- The input of an operator. -/
def input : LogicalOperatorRef → LogicalOperatorRef
  | null | scan _ => null
  | selection input _ | projection input _ | aggregation input _ _ _ => input

/-- The expressions of an operator. -/
def exprs : LogicalOperatorRef → List LogicalExpr
  | null | scan _ => []
  | selection _ expr => [expr]
  | projection _ projCols => projCols.map (·.expr)
  | aggregation _ aggrCol groupCol _ => [aggrCol.expr, groupCol.expr]

/-- The operators of a plan. -/
def operators : LogicalOperatorRef → List LogicalOperatorRef
  | null => []
  | scan path => [scan path]
  | selection input expr => selection input expr :: input.operators
  | projection input projCols => projection input projCols :: input.operators
  | aggregation input aggrCol groupCol aggOp => aggregation input aggrCol groupCol aggOp :: input.operators

/-- The plan is one over the scan of the table. -/
def Scans (path : CString) : LogicalOperatorRef → Prop
  | null => False
  | scan path' => path' = path
  | selection input _ | projection input _ | aggregation input _ _ _ => input.Scans path

/-- The columns of the schema, where the table has the columns `base`. -/
def outputColumns (base : List SchemaColumn) : LogicalOperatorRef → List SchemaColumn
  | null => []
  | scan _ => base
  | selection input _ => input.outputColumns base
  | projection _ projCols => projCols.map (·.column)
  | aggregation _ aggrCol groupCol _ => [aggrCol.column, groupCol.column]

end LogicalOperatorRef

/-- Each column of the expression is one of these, with the type that it declares. -/
def LogicalExpr.Resolves (cs : List SchemaColumn) : LogicalExpr → Prop
  | constant _ => True
  | column name retType => ⟨name, retType⟩ ∈ cs
  | binary l r _ => l.Resolves cs ∧ r.Resolves cs

/-- Each column of an expression of the plan is one of the input of its operator. -/
def LogicalOperatorRef.Resolves (base : List SchemaColumn) (p : LogicalOperatorRef) : Prop :=
  ∀ op ∈ p.operators, ∀ e ∈ op.exprs, e.Resolves (op.input.outputColumns base)

section Schemas

variable {base cs : List SchemaColumn} {p op : LogicalOperatorRef} {path : CString} {d : DiskManager} {e : LogicalExpr}

/-- Among columns with different names the name decides. -/
theorem eq_of_name (hnames : (base.map (·.name)).Nodup) {c c' : SchemaColumn} (hc : c ∈ base) (hc' : c' ∈ base)
    (hname : c.name = c'.name) : c = c' :=
  List.inj_on_of_nodup_map hnames hc hc' hname

/-- A column of a schema that has columns of the table only has the type of the table. -/
theorem LogicalExpr.Resolves.declares (hnames : (base.map (·.name)).Nodup) (hsub : ∀ c ∈ cs, c ∈ base)
    (h : e.Resolves cs) (path : CString) : e.Declares ⟨path, cs⟩ := by
  induction e with
  | constant value => trivial
  | column name retType =>
    intro col hcol
    have hname : col.name = name := by simpa using List.find?_some hcol
    have heq := eq_of_name hnames (hsub _ h) (hsub col (List.mem_of_find?_eq_some hcol)) hname.symm
    exact congrArg SchemaColumn.dataType heq
  | binary l r op ihl ihr => exact ⟨ihl h.1, ihr h.2⟩

namespace LogicalOperatorRef

/-- The schema of a plan has the name of its table and its own columns. -/
theorem schema_ok (hscan : p.Scans path) (h : heapfileSchema path d = (.ok ⟨path, base⟩, d)) :
    p.schema d = (.ok ⟨path, p.outputColumns base⟩, d) := by
  induction p with
  | null => exact hscan.elim
  | scan path' =>
    obtain rfl : path' = path := hscan
    exact h
  | selection input expr ih => exact ih hscan
  | projection input projCols ih => exact Prog.bind_ok (ih hscan)
  | aggregation input aggrCol groupCol aggOp ih => exact Prog.bind_ok (ih hscan)

/-- The operators below the first one. -/
theorem Resolves.tail (h : p.Resolves base) : p.input.Resolves base := by
  intro op hop
  apply h
  cases p with
  | null | scan path => cases hop
  | selection | projection | aggregation => exact List.mem_cons_of_mem _ hop

theorem Resolves.head (h : p.Resolves base) (he : e ∈ p.exprs) : e.Resolves (p.input.outputColumns base) := by
  refine h p ?_ e he
  cases p with
  | null => cases he
  | scan | selection | projection | aggregation => exact List.mem_cons_self

/-- No operator makes up a column. -/
theorem Resolves.outputColumns_subset (h : p.Resolves base) : ∀ c ∈ p.outputColumns base, c ∈ base := by
  induction p with
  | null =>
    intro c hc
    cases hc
  | scan path => exact fun c hc => hc
  | selection input expr ih => exact ih h.tail
  | projection input projCols ih =>
    intro c hc
    obtain ⟨col, hcol, rfl⟩ := List.mem_map.mp hc
    exact ih h.tail _ (h.head (List.mem_map_of_mem hcol))
  | aggregation input aggrCol groupCol aggOp ih =>
    intro c hc
    simp only [outputColumns, List.mem_cons, List.not_mem_nil, or_false] at hc
    rcases hc with rfl | rfl
    · exact ih h.tail _ (h.head (e := aggrCol.expr) List.mem_cons_self)
    · exact ih h.tail _ (h.head (e := groupCol.expr) (List.mem_cons_of_mem _ List.mem_cons_self))

/-- An operator with an expression has an input, which is over the same table. -/
theorem Scans.input_of_mem (h : p.Scans path) (hop : op ∈ p.operators) (he : e ∈ op.exprs) :
    op.input.Scans path := by
  induction p with
  | null => exact h.elim
  | scan path' =>
    obtain rfl := List.mem_singleton.mp hop
    cases he
  | selection input expr ih | projection input projCols ih | aggregation input aggrCol groupCol aggOp ih =>
    rcases List.mem_cons.mp hop with rfl | hop
    · exact h
    · exact ih h hop

/-- Below an operator of a plan the columns resolve as well. -/
theorem Resolves.input_of_mem (h : p.Resolves base) (hop : op ∈ p.operators) : op.input.Resolves base := by
  induction p with
  | null => cases hop
  | scan path =>
    obtain rfl := List.mem_singleton.mp hop
    exact h.tail
  | selection input expr ih | projection input projCols ih | aggregation input aggrCol groupCol aggOp ih =>
    rcases List.mem_cons.mp hop with rfl | hop
    · exact h.tail
    · exact ih h.tail hop

end LogicalOperatorRef

end Schemas

/-- **The schemas of plans.** On a table, after any run, a plan over its scan has a schema. If each column of an
expression is a column of the input of its operator, with its type, then all columns of the schema are columns of the
table, each expression has a value of its declared type over each row that it can be evaluated on, and `==` with any
schema that has types compares the names. -/
theorem plan_schema {columns : Columns} (halign : SchemaAligned columns) (hnames : (columns.1.map (·.name)).Nodup)
    {mem d₀ d : DiskManager} {u : Unit} (hcreate : createTable columns mem = (.ok u, d₀)) {ops : List HeapOp}
    (huser : RemovesUser ops) {us : List Unit} (hrun : Prog.runAll heapOp ops d₀ = (.ok us, d)) (path : CString)
    {p : LogicalOperatorRef} (hscan : p.Scans path) :
    ∃ table, p.schema d = (.ok table, d) ∧ table = ⟨path, p.outputColumns (schemaOf path columns).columns⟩ ∧
      (p.Resolves (schemaOf path columns).columns →
        (∀ c ∈ table.columns, c ∈ columns.1.map (·.schema)) ∧
        (∀ op ∈ p.operators, ∀ e ∈ op.exprs, ∃ inTable, op.input.schema d = (.ok inTable, d) ∧
          ∀ row stale v, e.evaluate row inTable stale = .ok v → e.returnType = some v.type) ∧
        ∀ other, HaveTypes other.columns → table.equals other =
          .ok (decide (path = other.name ∧ table.columns.map (·.name) = other.columns.map (·.name)))) := by
  obtain ⟨schema, hschema, -⟩ := createTable_eq_ok hcreate
  have hstate := TableState.run hcreate hschema huser hrun
  have hscanned := heapfileSchema_of_page halign hschema hstate.page1 path
  have hbase : ((schemaOf path columns).columns.map (·.name)).Nodup := by
    rw [schemaOf_columns, List.map_map]
    exact hnames
  refine ⟨_, LogicalOperatorRef.schema_ok hscan hscanned, rfl, fun hresolves => ⟨?_, ?_, ?_⟩⟩
  · exact hresolves.outputColumns_subset
  · intro op hop e he
    refine ⟨_, LogicalOperatorRef.schema_ok (hscan.input_of_mem hop he) hscanned, fun row stale v hv => ?_⟩
    have hdecl := (hresolves op hop e he).declares hbase (hresolves.input_of_mem hop).outputColumns_subset path
    exact LogicalExpr.evaluate_type hdecl hv
  · intro other hother
    refine Table.equals_ok (fun c hc => ?_) hother
    obtain ⟨column, -, rfl⟩ := List.mem_map.mp (hresolves.outputColumns_subset c hc)
    simp [Column.schema]

/-- `SELECT b FROM t WHERE a + b`. -/
def sumPlan : LogicalOperatorRef :=
  .projection (.selection (.scan ['t']) (.binary (.column [97] (some .integer)) (.column [98] (some .integer)) .add))
    [⟨[98], some .integer⟩]

theorem sumPlan_resolves : sumPlan.Resolves (schemaOf ['t'] twoIntegers).columns := by
  intro op hop e he
  simp only [sumPlan, LogicalOperatorRef.operators, List.mem_cons, List.not_mem_nil, or_false] at hop
  rcases hop with rfl | rfl | rfl
  · obtain rfl := List.mem_singleton.mp he
    exact List.mem_cons_of_mem _ List.mem_cons_self
  · obtain rfl := List.mem_singleton.mp he
    exact ⟨List.mem_cons_self, List.mem_cons_of_mem _ List.mem_cons_self⟩
  · cases he

/-- Its schema is the same as one that gives `b` another type. -/
theorem plan_schema_sum : ∃ d table, sumPlan.schema d = (.ok table, d) ∧ table = ⟨['t'], [⟨[98], some .integer⟩]⟩ ∧
    table.equals ⟨['t'], [⟨[98], some .boolean⟩]⟩ = .ok true := by
  have halign : SchemaAligned twoIntegers := ⟨1, by simp [NamesOfLength, twoIntegers], by decide⟩
  obtain ⟨d₀, hcreate, -⟩ := newPage_state blankMemory
    (show schemaPage twoIntegers = .ok (((Block.zero.blit 0 [2]).blit 1 [1, 97, 3]).blit 4 [1, 98, 3]) from rfl)
  obtain ⟨table, hschema, htable, hresolved⟩ := plan_schema halign (by decide) hcreate
    (by simp [RemovesUser]) (show Prog.runAll heapOp [] d₀ = (.ok [], d₀) from rfl) ['t'] (p := sumPlan) rfl
  have hequals := (hresolved sumPlan_resolves).2.2 ⟨['t'], [⟨[98], some .boolean⟩]⟩ (by simp [HaveTypes])
  refine ⟨d₀, table, hschema, htable, hequals.trans ?_⟩
  rw [htable]
  rfl

/-! ## Printing plans -/

/-- The table, and what was written to `std::cout`. -/
structure Console where
  disk : DiskManager
  out : List UInt8

abbrev PrintM (α : Type) := Prog Fault Console α

/-- `std::cout << text`. -/
def put (text : List UInt8) : PrintM Unit := Prog.modify fun c => { c with out := c.out ++ text }

/-- Run a program on the table. -/
def onDisk {α : Type} (m : HeapM α) : PrintM α := Prog.zoom (·.disk) (fun c disk => { c with disk := disk }) m

/-- `indent + 1`. -/
def nextIndent (indent : Int) : Except Fault Int :=
  if InRange (indent + 1) then .ok (indent + 1) else .error .overflow

/-- What `pretty` writes in front of an operator. -/
def newLine (indent : Int) : List UInt8 := ascii "\n" ++ List.replicate indent.toNat 9

namespace LogicalOperatorRef

mutual

/-- `pretty`. -/
def pretty : Nat → LogicalOperatorRef → Int → PrintM Unit
  | 0, _, _ => Prog.fault .diverges
  | fuel + 1, op, indent => do
    put (newLine indent)
    let text ← onDisk op.toString
    put text
    prettyChildren fuel op 0 indent

/-- The loop of `pretty`. The children are asked for to count them, and again to get one of them. -/
def prettyChildren : Nat → LogicalOperatorRef → Nat → Int → PrintM Unit
  | 0, _, _, _ => Prog.fault .diverges
  | fuel + 1, op, j, indent => do
    let (counted, op) ← Prog.lift op.children
    if j < counted.length then do
      let (children, op) ← Prog.lift op.children
      match children[j]? with
      | none => Prog.fault .outOfRange
      | some child => do
        pretty fuel child (← Prog.lift (nextIndent indent))
        prettyChildren fuel op (j + 1) indent
    else pure ()

end

/-- The text of an operator over the scan of a table. -/
def text : LogicalOperatorRef → List UInt8
  | null => []
  | scan path => ascii "Scan: " ++ nameBytes path
  | selection _ expr => ascii "Select: " ++ expr.toString
  | projection _ projCols => ascii "Projection: " ++ projCols.flatMap fun col => col.expr.toString ++ ascii "\t"
  | aggregation _ aggrCol groupCol _ =>
    ascii "Aggregate: groupCol: " ++ groupCol.name ++ ascii " aggregateCol: " ++ aggrCol.name

/-- The plan from the top, each operator on a line of its own and below the one that it is the input of. -/
def listing : LogicalOperatorRef → Int → List UInt8
  | null, _ => []
  | scan path, indent => newLine indent ++ (scan path).text
  | selection input expr, indent => newLine indent ++ (selection input expr).text ++ input.listing (indent + 1)
  | projection input projCols, indent =>
    newLine indent ++ (projection input projCols).text ++ input.listing (indent + 1)
  | aggregation input aggrCol groupCol aggOp, indent =>
    newLine indent ++ (aggregation input aggrCol groupCol aggOp).text ++ input.listing (indent + 1)

section Pretty

variable {op p : LogicalOperatorRef} {path : CString} {d : DiskManager} {page : Page} {out : List UInt8}
  {indent : Int} {fuel : Nat}

theorem toString_ok (hpage : d.file 1 = some page) (hop : op ≠ null) : op.toString d = (.ok op.text, d) := by
  cases op with
  | null => exact absurd rfl hop
  | scan path =>
    have hschema : heapfileSchema path d = (.ok ⟨path, decodeColumns page (page.byte 0).toNat 1⟩, d) :=
      Prog.bind_ok (readFile_ok hpage)
    exact Prog.bind_ok hschema
  | selection | projection | aggregation => rfl

/-- `pretty` writes the line of the operator, and goes on with the children. -/
theorem pretty_line (hpage : d.file 1 = some page) (hop : op ≠ null) :
    pretty (fuel + 1) op indent ⟨d, out⟩ =
      prettyChildren fuel op 0 indent ⟨d, out ++ newLine indent ++ op.text⟩ := by
  have htext : onDisk op.toString ⟨d, out ++ newLine indent⟩ = (.ok op.text, ⟨d, out ++ newLine indent⟩) :=
    Prog.zoom_ok (toString_ok hpage hop)
  have hline : put (newLine indent) ⟨d, out⟩ = (.ok (), ⟨d, out ++ newLine indent⟩) := rfl
  have hput : put op.text ⟨d, out ++ newLine indent⟩ = (.ok (), ⟨d, out ++ newLine indent ++ op.text⟩) := rfl
  rw [pretty, Prog.bind_ok hline, Prog.bind_ok htext, Prog.bind_ok hput]

/-- A null operator has a line without a text. -/
theorem pretty_null : pretty (fuel + 1) null indent ⟨d, out⟩ = (.error .nullPointer, ⟨d, out ++ newLine indent⟩) := by
  have hline : put (newLine indent) ⟨d, out⟩ = (.ok (), ⟨d, out ++ newLine indent⟩) := rfl
  rw [pretty, Prog.bind_ok hline]
  rfl

/-- The operator that has lost its input. -/
def withoutInput : LogicalOperatorRef → LogicalOperatorRef
  | null => null
  | scan path => scan path
  | selection _ expr => selection null expr
  | projection _ projCols => projection null projCols
  | aggregation _ aggrCol groupCol aggOp => aggregation null aggrCol groupCol aggOp

/-- The children of an operator that is no scan: the first time its input, the second time a null pointer. -/
theorem children_ok (hscan : op.Scans path) (hop : op ≠ scan path) :
    op.children = .ok ([op.input], op.withoutInput) ∧
      op.withoutInput.children = .ok ([null], op.withoutInput) := by
  cases op with
  | null => exact hscan.elim
  | scan path' =>
    obtain rfl : path' = path := hscan
    exact absurd rfl hop
  | selection | projection | aggregation => exact ⟨rfl, rfl⟩

/-- The loop over the children calls `pretty` with a null pointer. -/
theorem prettyChildren_null (hscan : op.Scans path) (hop : op ≠ scan path) (hindent : InRange (indent + 1)) :
    prettyChildren (fuel + 2) op 0 indent ⟨d, out⟩ =
      (.error .nullPointer, ⟨d, out ++ newLine (indent + 1)⟩) := by
  obtain ⟨hfirst, hsecond⟩ := children_ok hscan hop
  have hnext : nextIndent indent = .ok (indent + 1) := if_pos hindent
  have hnull : (pretty (fuel + 1) null (indent + 1) >>= fun _ => prettyChildren (fuel + 1) op.withoutInput 1 indent)
      ⟨d, out⟩ = (.error .nullPointer, ⟨d, out ++ newLine (indent + 1)⟩) := Prog.bind_error pretty_null
  rw [prettyChildren, hfirst, Prog.lift_ok_bind]
  simp only [List.length_singleton, Nat.lt_add_one, if_true, hsecond, Prog.lift_ok_bind, List.getElem?_cons_zero, hnext]
  exact hnull

/-- A scan has no children. -/
theorem prettyChildren_scan : prettyChildren (fuel + 1) (scan path) 0 indent ⟨d, out⟩ = (.ok (), ⟨d, out⟩) := by
  have hchildren : (scan path).children = .ok ([], scan path) := rfl
  rw [prettyChildren, hchildren, Prog.lift_ok_bind]
  rfl

end Pretty

end LogicalOperatorRef

open LogicalOperatorRef

/-- **Printing a plan.** On a table, after any run, `pretty` prints a plan over its scan to the end if the plan is the
scan, and for no other plan. For every other plan it writes the line of the first operator, begins the next line and
calls `toString` of a null pointer. -/
theorem pretty_plan {columns : Columns} {mem d₀ d : DiskManager} {u : Unit}
    (hcreate : createTable columns mem = (.ok u, d₀)) {ops : List HeapOp} (huser : RemovesUser ops) {us : List Unit}
    (hrun : Prog.runAll heapOp ops d₀ = (.ok us, d)) {path : CString} {p : LogicalOperatorRef}
    (hscan : p.Scans path) {indent : Int} (hindent : InRange (indent + 1)) (out : List UInt8) :
    ((∃ n, ∀ fuel, n ≤ fuel → pretty fuel p indent ⟨d, out⟩ = (.ok (), ⟨d, out ++ p.listing indent⟩)) ↔
        p = .scan path) ∧
      (p ≠ .scan path → ∃ n, ∀ fuel, n ≤ fuel → pretty fuel p indent ⟨d, out⟩ =
        (.error .nullPointer, ⟨d, out ++ newLine indent ++ p.text ++ newLine (indent + 1)⟩)) := by
  obtain ⟨schema, hschema, -⟩ := createTable_eq_ok hcreate
  have hpage := (TableState.run hcreate hschema huser hrun).page1
  have hnull : p ≠ .null := by
    rintro rfl
    exact hscan
  have hfails : p ≠ .scan path → ∃ n, ∀ fuel, n ≤ fuel → pretty fuel p indent ⟨d, out⟩ =
      (.error .nullPointer, ⟨d, out ++ newLine indent ++ p.text ++ newLine (indent + 1)⟩) := by
    intro hp
    refine ⟨3, fun fuel hfuel => ?_⟩
    obtain ⟨fuel, rfl⟩ : ∃ m, fuel = m + 3 := ⟨fuel - 3, by omega⟩
    rw [pretty_line hpage hnull]
    exact prettyChildren_null hscan hp hindent
  refine ⟨⟨?_, ?_⟩, hfails⟩
  · rintro ⟨n, hn⟩
    by_contra hp
    obtain ⟨n', hn'⟩ := hfails hp
    cases (hn (max n n') (Nat.le_max_left ..)).symm.trans (hn' _ (Nat.le_max_right ..))
  · rintro rfl
    refine ⟨2, fun fuel hfuel => ?_⟩
    obtain ⟨fuel, rfl⟩ : ∃ m, fuel = m + 2 := ⟨fuel - 2, by omega⟩
    rw [pretty_line hpage hnull, prettyChildren_scan, listing, List.append_assoc]

/-- Of `SELECT b FROM t WHERE a + b` the projection is printed. -/
theorem pretty_plan_sum : ∃ d n, ∀ fuel, n ≤ fuel → pretty fuel sumPlan 0 ⟨d, []⟩ =
    (.error .nullPointer, ⟨d, ascii "\nProjection: Column: b\t\n\t"⟩) := by
  obtain ⟨d₀, hcreate, -⟩ := newPage_state blankMemory
    (show schemaPage twoIntegers = .ok (((Block.zero.blit 0 [2]).blit 1 [1, 97, 3]).blit 4 [1, 98, 3]) from rfl)
  obtain ⟨n, h⟩ := (pretty_plan hcreate (by simp [RemovesUser])
    (show Prog.runAll heapOp [] d₀ = (.ok [], d₀) from rfl) (show sumPlan.Scans ['t'] from rfl)
    (show InRange (0 + 1) from ⟨by decide, by decide⟩) []).2 (by simp [sumPlan])
  exact ⟨d₀, n, h⟩

end SomeDB
