import SomeDB.Disk.SchemaCheck
import SomeDB.Disk.TupleCodec
import SomeDB.Sql.LogicalExpr

/-!
# The rows of a table

A table from its columns to the values of expressions over its rows: `create_table` writes the schema,
`HeapfileAccess::schema` reads it, `add_tuple` stores the values, `get_tuple` finds them, and `evaluate` reads them.

* `evaluate_stored`: over the bytes of a tuple a tree has the value that it has over the values of the tuple.
* `heapfileSchema_of_page`: the schema is read from its page.
* `tableRows_evaluate`: after every run of additions and removals on a page, each tuple that was not removed is a row
  for the expressions.
-/

namespace SomeDB

open Lib

/-- The table with the columns. -/
def schemaOf (path : CString) (columns : Columns) : Table := ⟨path, columns.1.map (·.schema)⟩

theorem schemaOf_columns (path : CString) (columns : Columns) :
    (schemaOf path columns).columns = columns.1.map (·.schema) := rfl

/-! ## Expressions over values -/

/-- The values of a tuple under the names of the columns. -/
def namedValues (cs : List Column) (vs : List ColumnValue) : List (List UInt8 × PrimitiveValue) :=
  cs.zipWith (fun c v => (c.name, v.primitive)) vs

namespace LogicalExpr

/-- The value of the tree for values with names. -/
def valueOver (row : List (List UInt8 × PrimitiveValue)) : LogicalExpr → StaleBytes → Except SqlError PrimitiveValue
  | constant value, _ => .ok value
  | column name _, _ =>
    match row.find? fun col => col.1 = name with
    | none => .error (.runtimeError (ascii "Column " ++ name ++ ascii " not found in the schema"))
    | some col => .ok col.2
  | binary l r op, stale => do
    let lhs ← l.valueOver row (stale.child 0)
    let rhs ← r.valueOver row (stale.child 1)
    op.apply ⟨lhs, stale [0]⟩ ⟨rhs, stale [1]⟩

/-- The columns of the tree are stored where they are read. -/
def ReadsStored (columns : Columns) : LogicalExpr → Prop
  | constant _ => True
  | column name _ => ∀ i c, columns.1[i]? = some c → c.name = name → offsetOf columns i = i * c.type.getSize.toNat
  | binary l r _ => l.ReadsStored columns ∧ r.ReadsStored columns

/-- If all columns have one type, every tree reads them where they are stored. -/
theorem readsStored_of_types {columns : Columns} (h : ∀ c ∈ columns.1, ∀ c' ∈ columns.1, c.type = c'.type)
    (e : LogicalExpr) : e.ReadsStored columns := by
  induction e with
  | constant => trivial
  | column name retType => exact fun i c hi _ => offsetOf_of_types h hi
  | binary l r op ihl ihr => exact ⟨ihl, ihr⟩

end LogicalExpr

/-- A name is found among the columns where it is found among the values. -/
theorem find_namedValues (name : List UInt8) {cs : List Column} {vs : List ColumnValue} (hlen : vs.length = cs.length) :
    ((cs.map (·.schema)).find? (fun col => col.name = name) = none ∧
      (namedValues cs vs).find? (fun col => col.1 = name) = none) ∨
    ∃ (i : Nat) (c : Column) (v : ColumnValue), cs[i]? = some c ∧ vs[i]? = some v ∧ c.name = name ∧
      (cs.map (·.schema)).find? (fun col => col.name = name) = some c.schema ∧
      (namedValues cs vs).find? (fun col => col.1 = name) = some (name, v.primitive) := by
  induction cs generalizing vs with
  | nil =>
    left
    exact ⟨rfl, rfl⟩
  | cons c cs ih =>
    cases vs with
    | nil => cases hlen
    | cons v vs =>
      by_cases hname : c.name = name
      · right
        refine ⟨0, c, v, rfl, rfl, hname, ?_, ?_⟩
        · simp [Column.schema, hname]
        · simp [namedValues, hname]
      · have hskip : ((c :: cs).map (·.schema)).find? (fun col => col.name = name) =
            (cs.map (·.schema)).find? (fun col => col.name = name) := by
          simp [Column.schema, hname]
        have hskip' : (namedValues (c :: cs) (v :: vs)).find? (fun col => col.1 = name) =
            (namedValues cs vs).find? (fun col => col.1 = name) := by
          simp [namedValues, hname]
        rw [hskip, hskip']
        rcases ih (Nat.succ.inj hlen) with hnone | ⟨i, c', v', hc', hv', hrest⟩
        · left
          exact hnone
        · right
          exact ⟨i + 1, c', v', hc', hv', hrest⟩

section Stored

variable {columns : Columns} {vs : List ColumnValue}

/-- A column is read from the bytes of the values if it is stored where it is read. -/
theorem getValue_stored (hnames : (columns.1.map (·.name)).Nodup) (hfixed : ∀ c ∈ columns.1, c.type ≠ .string)
    (hvs : Conforms columns vs) (path : CString) (rest : List UInt8) {i : Nat} {c : Column} {v : ColumnValue}
    (hc : columns.1[i]? = some c) (hv : vs[i]? = some v) (hoff : offsetOf columns i = i * c.type.getSize.toNat) :
    getValue (vs.flatMap (·.bytes) ++ rest) c.schema (schemaOf path columns) = .ok v.primitive := by
  obtain ⟨tupleBuf, hencode, hget⟩ := readsColumn_of_offset hnames hfixed hc hoff path vs rest hvs
  cases hencode.symm.trans (hvs.encode hfixed)
  exact hget c v hc hv

/-- Over the bytes of the values a tree has the value that it has over the values. -/
theorem LogicalExpr.evaluate_stored (hnames : (columns.1.map (·.name)).Nodup)
    (hfixed : ∀ c ∈ columns.1, c.type ≠ .string) (hvs : Conforms columns vs) (path : CString) (rest : List UInt8)
    {e : LogicalExpr} (hreads : e.ReadsStored columns) (stale : StaleBytes) :
    e.evaluate (vs.flatMap (·.bytes) ++ rest) (schemaOf path columns) stale =
      e.valueOver (namedValues columns.1 vs) stale := by
  induction e generalizing stale with
  | constant value => rfl
  | column name retType =>
    have hlen : vs.length = columns.1.length := by simpa using congrArg List.length hvs
    unfold evaluate evaluateColumn valueOver
    rcases find_namedValues name hlen with ⟨hnone, hnone'⟩ | ⟨i, c, v, hc, hv, hname, hsome, hsome'⟩
    · rw [schemaOf_columns, hnone, hnone']
    · rw [schemaOf_columns, hsome, hsome']
      exact getValue_stored hnames hfixed hvs path rest hc hv (hreads i c hc hname)
  | binary l r op ihl ihr =>
    unfold evaluate valueOver
    rw [ihl hreads.1, ihr hreads.2]

end Stored

/-! ## The schema in its page -/

section Page

variable {columns : Columns} {schema : Page}

/-- Names of one length do not get shorter. -/
theorem SchemaAligned.namesAscend (h : SchemaAligned columns) : NamesAscend columns.1 := by
  obtain ⟨len, hnames, -⟩ := h
  have hlen : ∀ {j : Nat} {c : Column}, j + 1 < columns.1.length → columns.1[j]? = some c →
      c.name.length = len := by
    intro j c hj hc
    apply hnames
    refine List.mem_of_getElem? (i := j) ?_
    rw [List.getElem?_dropLast, if_pos (by omega), hc]
  intro j c c' hj hc hc'
  rw [hlen (by omega) hc, hlen hj hc']

/-- The columns are read from the page that they were written to. -/
theorem heapfileSchema_of_page (h : SchemaAligned columns) (hschema : schemaPage columns = .ok schema)
    {d : DiskManager} (h1 : d.file 1 = some schema) (path : CString) :
    heapfileSchema path d = (.ok (schemaOf path columns), d) := by
  obtain ⟨len, hnames, hlast⟩ := h
  have hlast' : 1 + (0 + columns.1.length - 1) * schemaColumnSize len ≤ 255 := by
    rwa [Nat.zero_add]
  obtain ⟨page, hrun, hcols, -⟩ := writeColumns_ok columns.1 0 0 (Block.zero.blit 0 [UInt8.ofNat columns.1.length])
    (by simp) hnames hlast'
  unfold schemaPage at hschema
  cases hschema.symm.trans hrun
  unfold heapfileSchema
  rw [Prog.bind_ok (readFile_ok h1), schemaPage_byte_zero hschema,
    decodeColumns_ok columns.1 0 1 (fun _ => by simp) hnames hlast' hcols]
  rfl

theorem strncmpEq_self (buf : List UInt8) : strncmpEq buf buf = true := by
  induction buf with
  | nil => rfl
  | cons a buf ih => simp [strncmpEq, ih]

/-- A tuple that conforms to the columns is accepted. -/
theorem validate_of_conforms (h : SchemaAligned columns) (hschema : schemaPage columns = .ok schema)
    {args : AddTupleArgs} (hconf : ConformsTo columns args) : validate schema args = .ok true := by
  rw [validate_true, recordsPass_iff hschema hconf]
  intro j c hc
  obtain ⟨hin, hname, htype⟩ := record_eq h.namesAscend hschema hc
  rw [hname, htype]
  exact ⟨hin, strncmpEq_self c.name, rfl⟩

theorem ConformsTo.values {args : AddTupleArgs} (h : ConformsTo columns args) :
    Conforms columns (AddTupleArgs.values args) := by
  have htypes := congrArg (List.map Prod.snd) h
  unfold Conforms AddTupleArgs.values
  rw [List.map_map, List.map_map] at htypes
  rw [List.map_map]
  exact htypes

end Page

/-! ## Runs -/

/-- A run on a new page. -/
theorem newPage_run {schema : Page} {d : DiskManager} {ops : List PageOp} (htable : TablePage schema [] d)
    (hremoves : RemovesAdded ops) (hvalid : ∀ args ∈ added ops, validate schema args = .ok true)
    (hroom : FitTogether ops) :
    ∃ rs d' slots, Prog.runAll (pageOp 2) ops d = (.ok rs, d') ∧ Slots ops slots ∧ TablePage schema slots d' := by
  obtain ⟨rs, d', hrun, slots, hslots, htable'⟩ := Prog.runAll_inv
    (fun is _ d => ∃ slots, Slots is slots ∧ TablePage schema slots d)
    (by
      rintro is bs d op hop ⟨slots, hslots, htable⟩ hfit
      exact hslots.step htable hremoves hop hfit)
    ⟨[], Slots.nil, htable⟩ (htable.meets_fits hremoves hvalid hroom)
  exact ⟨rs, d', slots, hrun, hslots, htable'⟩

/-- A row is what is in the page from a tuple on. -/
theorem row_eq {page : Page} {off : Nat} {bytes : List UInt8} (hoff : off + bytes.length ≤ 4096)
    (hbytes : page.slice off bytes.length = bytes) :
    page.slice off (4096 - off) = bytes ++ page.slice (off + bytes.length) (4096 - (off + bytes.length)) := by
  have hsplit : 4096 - off = bytes.length + (4096 - (off + bytes.length)) := by omega
  rw [hsplit, Block.slice_add, hbytes]

/-- After every run on a page a tuple that was removed is not found, and the row of any other begins with the bytes of
its values. -/
theorem tableRows_found {columns : Columns} (halign : SchemaAligned columns)
    {mem d₀ d₁ d₂ : DiskManager} {u : Unit} {pid : PageId} (hcreate : createTable columns mem = (.ok u, d₀))
    {pre : List HeapOp} (huser : RemovesUser pre) {us : List Unit} (hpre : Prog.runAll heapOp pre d₀ = (.ok us, d₁))
    (hnew : newHeapPage d₁ = (.ok pid, d₂)) {ops : List PageOp} (hremoves : RemovesAdded ops)
    (hconf : ∀ args ∈ added ops, ConformsTo columns args) (hroom : FitTogether ops) (path : CString) :
    ∃ rs d, Prog.runAll (pageOp pid) ops d₂ = (.ok rs, d) ∧
      heapfileSchema path d = (.ok (schemaOf path columns), d) ∧
      ∀ (i : Nat) (args : AddTupleArgs), (added ops)[i]? = some args →
        (.remove (UInt32.ofNat i) ∈ ops → getTuple ⟨pid, UInt32.ofNat i⟩ d = (.ok none, d)) ∧
        (.remove (UInt32.ofNat i) ∉ ops →
          ∃ page off rest, getTuple ⟨pid, UInt32.ofNat i⟩ d = (.ok (some (page, off)), d) ∧
            page.slice off (4096 - off) = (AddTupleArgs.values args).flatMap (·.bytes) ++ rest) := by
  obtain ⟨schema, hschema, -⟩ := createTable_eq_ok hcreate
  have hstate := TableState.run hcreate hschema huser hpre
  obtain ⟨free, hdir⟩ := hstate.directory
  obtain ⟨dir, h0⟩ := hstate.page0
  obtain ⟨rfl, -, htable⟩ := TablePage.of_newHeapPage hdir h0 hstate.page1 hnew
  obtain ⟨rs, d, slots, hrun, hslots, htable'⟩ := newPage_run htable hremoves
    (fun args hargs => validate_of_conforms halign hschema (hconf args hargs)) hroom
  refine ⟨rs, d, hrun, heapfileSchema_of_page halign hschema htable'.page1 path, fun i args hi => ?_⟩
  obtain ⟨s, hs, hsb⟩ : ∃ s, slots[i]? = some s ∧ s.bytes = tupleBytes args := by
    have hbytes := congrArg (·[i]?) hslots.bytes
    simp only [List.getElem?_map, hi, Option.map_some] at hbytes
    exact Option.map_eq_some_iff.mp hbytes
  have hremoved := hslots.removed i s hs
  obtain ⟨hgone, hkept⟩ := htable'.getTuple hs
  constructor
  · intro hmem
    exact hgone (hremoved.mpr hmem)
  · intro hmem
    obtain ⟨page, off, hget, hoff, hslice⟩ := hkept (Bool.eq_false_iff.mpr fun hr => hmem (hremoved.mp hr))
    have hrow := row_eq hoff hslice
    rw [hsb] at hrow
    exact ⟨page, off, _, hget, hrow⟩

/-- **Rows.** On a page that was started in any run on a table, any run of additions of tuples that conform to the
columns and have room together, and of removals of tuples that were added, returns and leaves the schema as it was
written. A tuple that was removed is not found. Over a tuple that was not, every tree whose columns are stored where
they are read has the value that it has over the values that were added. -/
theorem tableRows_evaluate {columns : Columns} (halign : SchemaAligned columns)
    (hnames : (columns.1.map (·.name)).Nodup) (hfixed : ∀ c ∈ columns.1, c.type ≠ .string)
    {mem d₀ d₁ d₂ : DiskManager} {u : Unit} {pid : PageId} (hcreate : createTable columns mem = (.ok u, d₀))
    {pre : List HeapOp} (huser : RemovesUser pre) {us : List Unit} (hpre : Prog.runAll heapOp pre d₀ = (.ok us, d₁))
    (hnew : newHeapPage d₁ = (.ok pid, d₂)) {ops : List PageOp} (hremoves : RemovesAdded ops)
    (hconf : ∀ args ∈ added ops, ConformsTo columns args) (hroom : FitTogether ops) (path : CString) :
    ∃ rs d, Prog.runAll (pageOp pid) ops d₂ = (.ok rs, d) ∧
      heapfileSchema path d = (.ok (schemaOf path columns), d) ∧
      ∀ (i : Nat) (args : AddTupleArgs), (added ops)[i]? = some args →
        (.remove (UInt32.ofNat i) ∈ ops → getTuple ⟨pid, UInt32.ofNat i⟩ d = (.ok none, d)) ∧
        (.remove (UInt32.ofNat i) ∉ ops →
          ∃ page off, getTuple ⟨pid, UInt32.ofNat i⟩ d = (.ok (some (page, off)), d) ∧
            ∀ e stale, LogicalExpr.ReadsStored columns e →
              e.evaluate (page.slice off (4096 - off)) (schemaOf path columns) stale =
                e.valueOver (namedValues columns.1 (AddTupleArgs.values args)) stale) := by
  obtain ⟨rs, d, hrun, hschema, hfound⟩ :=
    tableRows_found halign hcreate huser hpre hnew hremoves hconf hroom path
  refine ⟨rs, d, hrun, hschema, fun i args hi => ⟨(hfound i args hi).1, fun hmem => ?_⟩⟩
  obtain ⟨page, off, rest, hget, hrow⟩ := (hfound i args hi).2 hmem
  refine ⟨page, off, hget, fun e stale hreads => ?_⟩
  have hvalues := (hconf args (List.mem_of_getElem? hi)).values
  rw [hrow]
  exact LogicalExpr.evaluate_stored hnames hfixed hvalues path rest hreads stale

/-- Two tuples of two integers; the first one is removed again. -/
def integerArgs (a b : Int32) : AddTupleArgs := ⟨[([97], .integer a), ([98], .integer b)], by simp⟩
def integerOps : List PageOp := [.add (integerArgs 1 2), .add (integerArgs 41 1), .remove 0]

/-- `a + b`. -/
def sumOfIntegers : LogicalExpr := .binary (.column [97] none) (.column [98] none) .add

theorem removesAdded_integerOps : RemovesAdded integerOps :=
  ((RemovesAdded.nil.add (integerArgs 1 2)).add (integerArgs 41 1)).remove (by decide)

theorem tableRows_evaluate_integers : ∃ d page off, getTuple ⟨2, 0⟩ d = (.ok none, d) ∧
    getTuple ⟨2, 1⟩ d = (.ok (some (page, off)), d) ∧
    sumOfIntegers.evaluate (page.slice off (4096 - off)) (schemaOf ['t'] twoIntegers) (fun _ => Block.zero) =
      .ok ⟨.integer, .integer 42, none⟩ := by
  have halign : SchemaAligned twoIntegers := ⟨1, by simp [NamesOfLength, twoIntegers], by decide⟩
  obtain ⟨d₀, hcreate, hrun, hstate, -⟩ := newPage_state blankMemory
    (show schemaPage twoIntegers = .ok (((Block.zero.blit 0 [2]).blit 1 [1, 97, 3]).blit 4 [1, 98, 3]) from rfl)
  obtain ⟨free, hdir⟩ := hstate.directory
  obtain ⟨rs, d, -, -, hrows⟩ := tableRows_evaluate halign (by decide) (by decide) hcreate
    (by simp [RemovesUser]) hrun (newHeapPage_ok hdir) removesAdded_integerOps (by decide)
    (by rw [FitTogether]; decide) ['t']
  obtain ⟨page, off, hget, hvalue⟩ := (hrows 1 (integerArgs 41 1) rfl).2 (by simp [integerOps])
  refine ⟨d, page, off, (hrows 0 (integerArgs 1 2) rfl).1 (by simp [integerOps]), hget, ?_⟩
  have hsum : BinaryOpType.add.apply ⟨⟨.integer, .integer 41, none⟩, Block.zero⟩
      ⟨⟨.integer, .integer 1, none⟩, Block.zero⟩ = .ok ⟨.integer, .integer 42, none⟩ := by
    rw [apply_integer _ _ rfl, Operand.integer_of_set rfl, Operand.integer_of_set rfl]
    rfl
  rw [hvalue sumOfIntegers (fun _ => Block.zero) (LogicalExpr.readsStored_of_types (by decide) sumOfIntegers)]
  exact hsum

end SomeDB
