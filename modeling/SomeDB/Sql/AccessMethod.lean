import SomeDB.Disk.PageDirectory

/-!
# Access methods (`access_method.cpp`)

`HeapfileAccess::schema` reads the columns of a table one behind the other, with a cursor of 8 bits.
`create_table` writes the column `j` at `j` times the size of the column before it. The two agree if all
columns but the last have names of one length and the last column begins within the first 256 bytes.
-/

namespace SomeDB

open Lib

/-- `Column` of a schema: the name, and the type or a null pointer. -/
structure SchemaColumn where
  name : List UInt8
  dataType : Option ColumnType
  deriving DecidableEq

/-- `Table`. -/
structure Table where
  name : CString
  columns : List SchemaColumn
  deriving DecidableEq

/-- The `switch` over the type of a column. -/
def ColumnType.ofCode (code : UInt8) : Option ColumnType :=
  if code = 1 then some .boolean
  else if code = 2 then some .string
  else if code = 3 then some .integer
  else if code = 4 then some .decimal
  else none

/-- The loop of `HeapfileAccess::schema` over the columns that are left. -/
def decodeColumns (page : Page) : Nat → UInt8 → List SchemaColumn
  | 0, _ => []
  | n + 1, cursor =>
    let colNameLen := page.byte cursor.toNat
    let colName := page.slice (cursor.toNat + 1) colNameLen.toNat
    let colType := ColumnType.ofCode (page.byte (cursor.toNat + colNameLen.toNat + 1))
    ⟨colName, colType⟩ ::
      decodeColumns page n (cursor + UInt8.ofNat (schemaColumnSize colNameLen.toNat))

/-- `HeapfileAccess::schema` of the table with the name `path`. -/
def heapfileSchema (path : CString) : HeapM Table := do
  let page ← onFile (readPage 1)
  pure ⟨path, decodeColumns page (page.byte 0).toNat 1⟩

theorem ColumnType.ofCode_code (t : ColumnType) : ColumnType.ofCode t.code = some t := by
  cases t <;> rfl

/-! ## Columns of one size -/

/-- All columns but the last have names of `len` bytes. -/
def NamesOfLength (len : Nat) (cs : List Column) : Prop := ∀ c ∈ cs.dropLast, c.name.length = len

theorem NamesOfLength.tail {len : Nat} {c : Column} {cs : List Column} (h : NamesOfLength len (c :: cs)) :
    NamesOfLength len cs := by
  intro c' hc'
  cases cs with
  | nil => cases hc'
  | cons c₁ cs => exact h c' (List.mem_cons_of_mem _ hc')

theorem NamesOfLength.head {len : Nat} {c : Column} {cs : List Column} (h : NamesOfLength len (c :: cs))
    (hne : cs ≠ []) : c.name.length = len := by
  cases cs with
  | nil => exact absurd rfl hne
  | cons c₁ cs => exact h c (List.mem_cons_self ..)

/-- The column `j + i` is at `j + i` times the size of a column. -/
def ColumnsAt (page : Page) (len j : Nat) (cs : List Column) : Prop :=
  ∀ (i : Nat) (c : Column), cs[i]? = some c →
    page.slice (1 + (j + i) * schemaColumnSize len) c.bytes.length = c.bytes

/-- The columns are written one behind the other. -/
theorem writeColumns_ok {len : Nat} (cs : List Column) (j colSize : Nat) (colBuf : Page)
    (hsize : j * colSize = j * schemaColumnSize len) (hnames : NamesOfLength len cs)
    (hlast : 1 + (j + cs.length - 1) * schemaColumnSize len ≤ 255) :
    ∃ page, writeColumns cs j colSize colBuf = .ok page ∧ ColumnsAt page len j cs ∧
      ∀ off n, off + n ≤ 1 + j * schemaColumnSize len → page.slice off n = colBuf.slice off n := by
  induction cs generalizing j colSize colBuf with
  | nil => exact ⟨colBuf, rfl, by simp [ColumnsAt], fun _ _ _ => rfl⟩
  | cons c cs ih =>
    have hlen : c.bytes.length = schemaColumnSize c.name.length := c.bytes_length
    have hname := c.name_len
    have hj : j * schemaColumnSize len ≤ (j + (c :: cs).length - 1) * schemaColumnSize len :=
      Nat.mul_le_mul_right _ (by simp only [List.length_cons]; omega)
    have hle : schemaColumnSize c.name.length ≤ 257 := by
      rw [schemaColumnSize]
      omega
    have hfit : 1 + j * colSize + c.bytes.length ≤ 4096 := by
      rw [hsize, hlen]
      omega
    have hwrite : writeColumns (c :: cs) j colSize colBuf =
        writeColumns cs (j + 1) (schemaColumnSize c.name.length)
          (colBuf.blit (1 + j * colSize) c.bytes) := by
      simp only [writeColumns, bind, Except.bind, memcpy, if_pos hfit]
    rw [hwrite]
    by_cases hne : cs = []
    · subst hne
      refine ⟨_, rfl, fun i c' hi => ?_, fun off n hoff => ?_⟩
      · obtain ⟨rfl, rfl⟩ : i = 0 ∧ c = c' := by
          cases i with
          | zero => exact ⟨rfl, by simpa using hi⟩
          | succ i => simp at hi
        rw [Nat.add_zero, hsize]
        exact Block.slice_blit _ _ _ (by omega)
      · exact Block.slice_blit_disjoint _ (.inl (by omega))
    · have hc := hnames.head hne
      obtain ⟨page, hrun, hcols, hkeep⟩ := ih (j + 1) (schemaColumnSize c.name.length)
        (colBuf.blit (1 + j * colSize) c.bytes) (by rw [hc]) hnames.tail (by
          rw [List.length_cons] at hlast
          rwa [show j + 1 + cs.length - 1 = j + (cs.length + 1) - 1 by omega])
      have hnext : (j + 1) * schemaColumnSize len = j * schemaColumnSize len + schemaColumnSize len :=
        Nat.succ_mul ..
      refine ⟨page, hrun, fun i c' hi => ?_, fun off n hoff => ?_⟩
      · cases i with
        | zero =>
          obtain rfl : c = c' := by simpa using hi
          rw [Nat.add_zero, hkeep _ _ (by rw [hnext, hlen, hc]; omega), hsize]
          exact Block.slice_blit _ _ _ (by omega)
        | succ i =>
          have := hcols i c' (by simpa using hi)
          rwa [show j + 1 + i = j + (i + 1) by omega] at this
      · rw [hkeep _ _ (by omega)]
        exact Block.slice_blit_disjoint _ (.inl (by omega))

/-- A column that stands where the cursor is. -/
theorem column_at {page : Page} {off : Nat} {c : Column}
    (h : page.slice off c.bytes.length = c.bytes) :
    page.byte off = UInt8.ofNat c.name.length ∧ page.slice (off + 1) c.name.length = c.name ∧
      page.byte (off + c.name.length + 1) = c.type.code := by
  rw [show c.bytes.length = c.name.length + 1 + 1 by rw [c.bytes_length, schemaColumnSize]; omega,
    Block.slice_succ, Block.slice_add, Column.bytes, Block.slice_one] at h
  obtain ⟨h₁, h⟩ := List.cons.inj h
  obtain ⟨h₂, h₃⟩ := List.append_inj h (by simp)
  refine ⟨h₁, h₂, ?_⟩
  rw [show off + c.name.length + 1 = off + 1 + c.name.length by omega]
  exact List.singleton_inj.mp h₃

/-- The columns are read one behind the other. -/
theorem decodeColumns_ok {page : Page} {len : Nat} (cs : List Column) (j : Nat) (cursor : UInt8)
    (hcursor : cs ≠ [] → cursor.toNat = 1 + j * schemaColumnSize len) (hnames : NamesOfLength len cs)
    (hlast : 1 + (j + cs.length - 1) * schemaColumnSize len ≤ 255) (hcols : ColumnsAt page len j cs) :
    decodeColumns page cs.length cursor = cs.map fun c => ⟨c.name, some c.type⟩ := by
  induction cs generalizing j cursor with
  | nil => rfl
  | cons c cs ih =>
    have hname := c.name_len
    have hat := hcols 0 c rfl
    rw [Nat.add_zero, ← hcursor (by simp)] at hat
    obtain ⟨h₁, h₂, h₃⟩ := column_at hat
    have hlen : (UInt8.ofNat c.name.length).toNat = c.name.length := by
      rw [UInt8.toNat_ofNat', Nat.mod_eq_of_lt (by omega)]
    rw [List.length_cons, decodeColumns]
    simp only [h₁, hlen, h₂, h₃, ColumnType.ofCode_code, List.map_cons]
    congr 1
    refine ih (j + 1) _ (fun hne => ?_) hnames.tail ?_ (fun i c' hi => ?_)
    · have hle : (j + 1) * schemaColumnSize len ≤ (j + (c :: cs).length - 1) * schemaColumnSize len := by
        have := List.length_pos_iff.mpr hne
        exact Nat.mul_le_mul_right _ (by simp only [List.length_cons]; omega)
      have hnext : (j + 1) * schemaColumnSize len = j * schemaColumnSize len + schemaColumnSize len :=
        Nat.succ_mul ..
      rw [hnames.head hne, UInt8.toNat_add, UInt8.toNat_ofNat', hcursor (by simp)]
      omega
    · rw [List.length_cons] at hlast
      rwa [show j + 1 + cs.length - 1 = j + (cs.length + 1) - 1 by omega]
    · have := hcols (i + 1) c' (by simpa using hi)
      rwa [show j + (i + 1) = j + 1 + i by omega] at this

/-- Where the columns are written is where they are read: all but the last have names of one length, and the
last one begins within the reach of the cursor. -/
def SchemaAligned (columns : Columns) : Prop :=
  ∃ len, NamesOfLength len columns.1 ∧ 1 + (columns.1.length - 1) * schemaColumnSize len ≤ 255

/-- **The schema is read back.** -/
theorem heapfileSchema_roundTrip {columns : Columns} (h : SchemaAligned columns) (mem : DiskManager)
    (path : CString) :
    ∃ d, createTable columns mem = (.ok (), d) ∧
      heapfileSchema path d = (.ok ⟨path, columns.1.map fun c => ⟨c.name, some c.type⟩⟩, d) := by
  obtain ⟨len, hnames, hlast⟩ := h
  have hlast' : 1 + (0 + columns.1.length - 1) * schemaColumnSize len ≤ 255 := by
    rwa [Nat.zero_add]
  obtain ⟨page, hrun, hcols, hkeep⟩ := writeColumns_ok columns.1 0 0
    (Block.zero.blit 0 [UInt8.ofNat columns.1.length]) (by simp) hnames hlast'
  obtain ⟨d, hcreate, hcreated⟩ := createTable_of_schema mem
    (show schemaPage columns = .ok page from hrun)
  refine ⟨d, hcreate, ?_⟩
  have hcount : (page.byte 0).toNat = columns.1.length := by
    have hblit : (Block.zero.blit 0 [UInt8.ofNat columns.1.length] : Page).slice 0 1 =
        [UInt8.ofNat columns.1.length] := Block.slice_blit_of_length _ rfl (by omega)
    have hbyte := hkeep 0 1 (by omega)
    rw [Block.slice_one, hblit] at hbyte
    rw [List.singleton_inj.mp hbyte, UInt8.toNat_ofNat', Nat.mod_eq_of_lt columns.2]
  rw [heapfileSchema, Prog.bind_ok (readFile_ok hcreated.page1), hcount,
    decodeColumns_ok columns.1 0 1 (fun _ => by simp) hnames hlast' hcols]
  rfl

/-- Two columns `foo` and `bar`. -/
def fooBar : Columns :=
  ⟨[⟨[102, 111, 111], .string, by decide⟩, ⟨[98, 97, 114], .decimal, by decide⟩], by decide⟩

theorem heapfileSchema_roundTrip_fooBar : ∃ d, createTable fooBar blankMemory = (.ok (), d) ∧
    heapfileSchema ['t'] d =
      (.ok ⟨['t'], [⟨[102, 111, 111], some .string⟩, ⟨[98, 97, 114], some .decimal⟩]⟩, d) :=
  heapfileSchema_roundTrip ⟨3, by simp [NamesOfLength, fooBar], by decide⟩ blankMemory ['t']

/-- Columns `a`, `bb` and `c`: the third one is written at 9 and looked for at 8. -/
def abbc : Columns :=
  ⟨[⟨[97], .integer, Column.length_a⟩, ⟨[98, 98], .integer, by decide⟩, ⟨[99], .integer, Column.length_c⟩], by decide⟩

theorem heapfileSchema_roundTrip_fails : ∃ d r, createTable abbc blankMemory = (.ok (), d) ∧
    heapfileSchema ['t'] d = (.ok r, d) ∧ r.columns ≠ abbc.1.map fun c => ⟨c.name, some c.type⟩ := by
  obtain ⟨d, hcreate, hcreated⟩ := createTable_of_schema blankMemory (show schemaPage abbc =
    .ok ((((Block.zero.blit 0 [3]).blit 1 [1, 97, 3]).blit 4 [2, 98, 98, 3]).blit 9 [1, 99, 3]) from rfl)
  refine ⟨d, ⟨['t'], [⟨[97], some .integer⟩, ⟨[98, 98], some .integer⟩, ⟨[], some .boolean⟩]⟩, hcreate,
    ?_, by decide⟩
  rw [heapfileSchema, Prog.bind_ok (readFile_ok hcreated.page1)]
  rfl

end SomeDB
