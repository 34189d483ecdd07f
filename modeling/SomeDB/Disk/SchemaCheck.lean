import SomeDB.Disk.SchemaPage

/-!
# The schema check of `add_tuple`

`TableState` is what a run on a table keeps, whatever it adds and removes. With room in the page, `add_tuple` does
what the check of the schema decides (`stores_iff`, `rejects_iff`).

* `checkDecides_iff`: with names of ascending length, a tuple that does not conform is answered as it should be if the
  number of its columns is wrong, or if the first column that does not pass differs in its type.
* `add_tuple_validates_iff`: when the decision is the right one.
-/

namespace SomeDB

open Lib

/-! ## Runs on a table -/

/-- The state of a table: the directory in memory and the one on disk, the schema, and page 2 with its header. -/
structure TableState (schema : Page) (d : DiskManager) : Prop where
  directory : ∃ free, DirHolds d.pageDirectory free
  page0 : ∃ dir, d.file 0 = some dir
  page1 : d.file 1 = some schema
  page2 : ∀ page, d.file 2 = some page → 5 ≤ (extractHeader page).freeStart.toNat ∧
    (extractHeader page).freeStart.toNat ≤ 4096 ∧ (extractHeader page).freeEnd.toNat ≤ 4095
  rest : ∀ p, 2 < p.toNat → d.file p = none

/-- Tuples are removed from user pages only. -/
def RemovesUser (ops : List HeapOp) : Prop := ∀ rid, .remove rid ∈ ops → 2 ≤ rid.pid.toNat

/-- A tuple that was stored: there was room for its pointer, and its bytes did not begin before the page. -/
theorem storeTuple_eq_ok {page page' : Page} {tupleBuf : List UInt8} {size : UInt16} {ptr : TuplePtr}
    (hsize : tupleBuf.length = size.toNat) (h : storeTuple page tupleBuf size = .ok (page', ptr)) :
    (extractHeader page).freeStart.toNat + 4 ≤ 4096 ∧ size.toNat ≤ (extractHeader page).freeEnd.toNat ∧
      (extractHeader page).freeEnd.toNat ≤ 4096 ∧ page' = withTuple page tupleBuf size ∧
      ptr = ⟨(extractHeader page).freeEnd - size, size⟩ := by
  by_cases hstart : (extractHeader page).freeStart.toNat + 4 ≤ 4096
  · by_cases hlt : size.toNat ≤ (extractHeader page).freeEnd.toNat
    · by_cases hend : (extractHeader page).freeEnd.toNat ≤ 4096
      · rw [storeTuple_ok hsize hstart hlt hend] at h
        cases h
        exact ⟨hstart, hlt, hend, rfl, rfl⟩
      · simp only [storeTuple, bind, Except.bind] at h
        rw [memcpy_ok (by rw [tuplePtr_bytes_length]; exact hstart)] at h
        simp only [if_neg (Nat.not_lt.mpr hlt)] at h
        rw [memcpy, if_neg (by omega)] at h
        cases h
    · simp only [storeTuple, bind, Except.bind] at h
      rw [memcpy_ok (by rw [tuplePtr_bytes_length]; exact hstart)] at h
      simp only [if_pos (Nat.not_le.mp hlt)] at h
      cases h
  · simp only [storeTuple, bind, Except.bind] at h
    rw [memcpy, if_neg (by rw [tuplePtr_bytes_length]; exact hstart)] at h
    cases h

/-- The header behind a tuple that was stored. -/
theorem extractHeader_withTuple (page : Page) (tupleBuf : List UInt8) (size : UInt16) :
    extractHeader (withTuple page tupleBuf size) = { extractHeader page with
      freeStart := (extractHeader page).freeStart + 4
      freeEnd := (extractHeader page).freeEnd - size } := by
  rw [withTuple, extractHeader_construct]

/-- The bounds of the free space behind a tuple that was stored, where they do not wrap. -/
theorem withTuple_bounds {page : Page} {size : UInt16} (tupleBuf : List UInt8)
    (hstart : (extractHeader page).freeStart.toNat + 4 ≤ 4096) (hlt : size.toNat ≤ (extractHeader page).freeEnd.toNat) :
    (extractHeader (withTuple page tupleBuf size)).freeStart.toNat = (extractHeader page).freeStart.toNat + 4 ∧
      (extractHeader (withTuple page tupleBuf size)).freeEnd.toNat =
        (extractHeader page).freeEnd.toNat - size.toNat := by
  rw [extractHeader_withTuple]
  refine ⟨?_, UInt16.toNat_sub_of_le _ _ (UInt16.le_iff_toNat_le.mpr hlt)⟩
  rw [UInt16.toNat_add]
  simp only [UInt16.reduceToNat]
  omega

/-- A removal leaves the bounds of the free space. -/
theorem extractHeader_markRemoved {page page' : Page} {slotNum : UInt32}
    (h : markRemoved page slotNum = .ok page') :
    (extractHeader page').freeStart = (extractHeader page).freeStart ∧
      (extractHeader page').freeEnd = (extractHeader page).freeEnd := by
  simp only [markRemoved, bind, Except.bind] at h
  split at h
  · cases h
  · split at h
    · cases h
    · cases h
      rw [extractHeader_construct]
      exact ⟨rfl, rfl⟩

/-- A new table. -/
theorem Created.tableState {schema : Page} {d : DiskManager} (h : Created schema d) : TableState schema d := by
  refine ⟨⟨_, h.directory⟩, ⟨_, h.page0⟩, h.page1, fun page hpage => ?_, fun p hp => h.rest p ?_ ?_⟩
  · rw [h.rest 2 (by decide) (by decide)] at hpage
    cases hpage
  · rintro rfl
    simp at hp
  · rintro rfl
    simp at hp

namespace TableState

variable {schema : Page} {d d' : DiskManager}

/-- A write to page 2 of a page with a header. -/
theorem of_write (h : TableState schema d) {page : Page}
    (hstart : 5 ≤ (extractHeader page).freeStart.toNat ∧ (extractHeader page).freeStart.toNat ≤ 4096)
    (hend : (extractHeader page).freeEnd.toNat ≤ 4095) (hdir : ∃ free, DirHolds d'.pageDirectory free)
    (h0 : ∃ dir, d'.file 0 = some dir) (h2 : d'.file 2 = some page)
    (hrest : ∀ p, p ≠ 0 → p ≠ 2 → d'.file p = d.file p) : TableState schema d' := by
  refine ⟨hdir, h0, (hrest 1 (by decide) (by decide)).trans h.page1, fun page' hpage' => ?_, fun p hp => ?_⟩
  · rw [h2] at hpage'
    cases hpage'
    exact ⟨hstart.1, hstart.2, hend⟩
  · rw [hrest p (by rintro rfl; simp at hp) (by rintro rfl; simp at hp), h.rest p hp]

/-- A call leaves the state of a table. -/
theorem step (h : TableState schema d) {op : HeapOp} {u : Unit} (hop : ∀ rid, op = .remove rid → 2 ≤ rid.pid.toNat)
    (hrun : heapOp op d = (.ok u, d')) : TableState schema d' := by
  obtain ⟨free, hdir⟩ := h.directory
  obtain ⟨dir, h0⟩ := h.page0
  cases op with
  | newPage =>
    rw [heapOp, Prog.bind_ok (newHeapPage_ok hdir)] at hrun
    cases hrun
    have hheader : extractHeader (newHeapPageBuf (d.junk 0)) = ⟨5, 4095, 0⟩ := by
      rw [newHeapPageBuf, extractHeader_construct]
    exact h.of_write (by rw [hheader]; decide) (by rw [hheader]; decide) ⟨free, hdir⟩
      ⟨dir, (withNewPage_file_ne d (by decide)).trans h0⟩ (withNewPage_file_two d)
      fun p _ hp => withNewPage_file_ne d hp
  | add args =>
    rw [heapOp] at hrun
    obtain ⟨r, d₁, hadd, hrun⟩ := Prog.bind_eq_ok hrun
    cases hrun
    obtain ⟨page, h2, ⟨-, -, rfl⟩ | ⟨page', ptr, -, -, hsize, hstore, hdir', hfile⟩⟩ :=
      addTuple_cases hdir h0 h.page1 hadd
    · exact h
    · obtain ⟨hstart, hlt, -, rfl, -⟩ := storeTuple_eq_ok hsize hstore
      obtain ⟨hstart', -, hend⟩ := h.page2 page h2
      obtain ⟨hstart₁, hend₁⟩ := withTuple_bounds (tupleBytes args) hstart hlt
      have h2' : d'.file 2 = some (withTuple page (tupleBytes args) (tupleSize args)) := by
        rw [hfile, Disk.write_ne _ _ (by decide), Disk.write_same]
      refine h.of_write (by omega) (by omega) ⟨_, hdir'⟩ ⟨_, by rw [hfile]; exact Disk.write_same ..⟩ h2'
        fun p hp0 hp2 => ?_
      rw [hfile, Disk.write_ne _ _ hp0, Disk.write_ne _ _ hp2]
  | remove rid =>
    obtain ⟨page, page', hpage, hmark, rfl⟩ := removeTuple_file hrun
    have hpid : rid.pid = 2 := by
      have hge := hop rid rfl
      by_contra hne
      have hgt : 2 < rid.pid.toNat := by
        refine Nat.lt_of_le_of_ne hge fun h2 => hne ?_
        exact UInt32.toNat_inj.mp h2.symm
      rw [h.rest _ hgt] at hpage
      cases hpage
    rw [hpid] at hpage
    obtain ⟨hs, he⟩ := extractHeader_markRemoved hmark
    obtain ⟨hstart, hstart', hend⟩ := h.page2 page hpage
    have h2 : (d.file.write rid.pid page') 2 = some page' := by
      rw [hpid]
      exact Disk.write_same d.file 2 page'
    refine h.of_write (by rw [hs]; exact ⟨hstart, hstart'⟩) (by rw [he]; exact hend) ⟨free, hdir⟩ ⟨dir, ?_⟩ h2
      fun p _ hp => ?_
    · exact (Disk.write_ne d.file page' (by rw [hpid]; decide)).trans h0
    · exact Disk.write_ne d.file page' (by rw [hpid]; exact hp)

/-- A run on a new table. -/
theorem run {columns : Columns} {mem d₀ : DiskManager} {u : Unit} (hcreate : createTable columns mem = (.ok u, d₀))
    (hschema : schemaPage columns = .ok schema) {ops : List HeapOp} (hops : RemovesUser ops) {rs : List Unit}
    (hrun : Prog.runAll heapOp ops d₀ = (.ok rs, d)) : TableState schema d := by
  obtain ⟨schema', hschema', hcreated⟩ := createTable_eq_ok hcreate
  rw [hschema] at hschema'
  cases hschema'
  have hmeets : Prog.Meets heapOp (fun _ op => ∀ rid, op = .remove rid → 2 ≤ rid.pid.toNat) ops d₀ :=
    Prog.meets_of_forall (D := fun op => ∀ rid, op = HeapOp.remove rid → 2 ≤ rid.pid.toNat)
      (fun op hop rid he => hops rid (he ▸ hop)) _
  exact Prog.runAll_inv_of_ok (fun _ d => TableState schema d)
    (fun _ _ _ _ _ hinv hop hstep => hinv.step hop hstep) hcreated.tableState hmeets hrun

end TableState

/-! ## The check is right -/

/-- The columns of the arguments have the names and the types of the table's. -/
def ConformsTo (columns : Columns) (args : AddTupleArgs) : Prop :=
  args.1.map (fun col => (col.1, col.2.type)) = columns.1.map fun c => (c.name, c.type)

instance (columns : Columns) (args : AddTupleArgs) : Decidable (ConformsTo columns args) :=
  inferInstanceAs (Decidable (_ = _))

/-- A user page that was started has room for the tuple and its pointer. -/
def HasRoom (d : DiskManager) (args : AddTupleArgs) : Prop :=
  ∃ (p : PageId) (page : Page), 2 ≤ p.toNat ∧ d.file p = some page ∧
    (extractHeader page).freeStart.toNat + 4 + (tupleBytes args).length ≤ (extractHeader page).freeEnd.toNat

/-- `add_tuple` stores the tuple: its bytes are where `tup_ptr_out` says. -/
def Stores (d : DiskManager) (args : AddTupleArgs) : Prop :=
  ∃ ptr d', addTuple args d = (.ok (some ptr), d') ∧
    ∃ (p : PageId) (page : Page), 2 ≤ p.toNat ∧ d'.file p = some page ∧
      ptr.size.toNat = (tupleBytes args).length ∧
      page.slice ptr.startOffset.toNat (tupleBytes args).length = tupleBytes args

/-- `add_tuple` stores the tuple exactly if it conforms to the columns, and changes nothing if it does not. -/
def Validates (columns : Columns) (d : DiskManager) (args : AddTupleArgs) : Prop :=
  (Stores d args ↔ ConformsTo columns args) ∧
    (¬ ConformsTo columns args → addTuple args d = (.ok none, d))

/-- Every column is found: where it is looked for there is a record of its type, with a name that its own
begins with. -/
def ColumnsFound (columns : Columns) (schema : Page) : Prop :=
  ∀ j c, columns.1[j]? = some c → RecordInPage schema j ∧ strncmpEq (recordName schema j) c.name = true ∧
    c.type.code = recordType schema j

/-- The check decides as it should: the columns are found, or the tuple does not conform to them and differs from
the records that are found, in a way that can be printed. -/
def CheckDecides (columns : Columns) (schema : Page) (args : AddTupleArgs) : Prop :=
  if ConformsTo columns args then ColumnsFound columns schema else RecordsDiffer schema args

/-- The records of a tuple that conforms are those of the columns. -/
theorem recordsPass_iff {columns : Columns} {schema : Page} {args : AddTupleArgs}
    (hschema : schemaPage columns = .ok schema) (h : ConformsTo columns args) :
    RecordsPass schema args ↔ ColumnsFound columns schema := by
  have hlen : args.1.length = columns.1.length := by simpa using congrArg List.length h
  have hcol : ∀ j : Nat, (args.1[j]?).map (fun col => (col.1, col.2.type)) =
      (columns.1[j]?).map fun c => (c.name, c.type) := fun j => by
    have := congrArg (·[j]?) h
    simpa using this
  rw [RecordsPass, schemaPage_byte_zero hschema]
  constructor
  · rintro hpass j c hc
    have hj := (List.getElem?_eq_some_iff.mp hc).1
    obtain hzero | ⟨-, hall⟩ := hpass
    · omega
    obtain ⟨hin, name, value, hargs, hname, htype⟩ := hall j hj
    have hjc := hcol j
    rw [hargs, hc] at hjc
    simp only [Option.map_some, Option.some.injEq, Prod.mk.injEq] at hjc
    exact ⟨hin, hjc.1 ▸ hname, hjc.2 ▸ htype⟩
  · intro hfound
    refine .inr ⟨hlen, fun j hj => ?_⟩
    obtain ⟨c, hc⟩ : ∃ c, columns.1[j]? = some c := ⟨_, List.getElem?_eq_getElem hj⟩
    obtain ⟨⟨name, value⟩, hargs⟩ : ∃ col, args.1[j]? = some col := ⟨_, List.getElem?_eq_getElem (by omega)⟩
    obtain ⟨hin, hname, htype⟩ := hfound j c hc
    have hjc := hcol j
    rw [hargs, hc] at hjc
    simp only [Option.map_some, Option.some.injEq, Prod.mk.injEq] at hjc
    exact ⟨hin, name, value, hargs, hjc.1 ▸ hname, hjc.2 ▸ htype⟩

/-- The column `j` of the arguments has the type of the table's and a name that begins with its name. -/
def ColumnPasses (columns : Columns) (args : AddTupleArgs) (j : Nat) : Prop :=
  ∃ c col, columns.1[j]? = some c ∧ args.1[j]? = some col ∧ c.name <+: col.1 ∧ c.type = col.2.type

/-- It has a name that begins with that of the table's column, and another type. -/
def TypeDiffers (columns : Columns) (args : AddTupleArgs) (j : Nat) : Prop :=
  ∃ c col, columns.1[j]? = some c ∧ args.1[j]? = some col ∧ c.name <+: col.1 ∧ c.type ≠ col.2.type

/-- There is a column, and the number of columns is wrong or the first column that does not pass differs in its
type. -/
def Reported (columns : Columns) (args : AddTupleArgs) : Prop :=
  columns.1 ≠ [] ∧ (args.1.length ≠ columns.1.length ∨
    ∃ j, TypeDiffers columns args j ∧ ∀ i < j, ColumnPasses columns args i)

section Ascending

variable {columns : Columns} {schema : Page} {args : AddTupleArgs} {j : Nat}

theorem ColumnType.code_inj {s t : ColumnType} (h : s.code = t.code) : s = t := by
  cases s <;> cases t <;> first | rfl | exact absurd h (by decide)

/-- A record passes if the column does. -/
theorem recordPasses_iff (hasc : NamesAscend columns.1) (hnul : ∀ c ∈ columns.1, 0 ∉ c.name)
    (h : schemaPage columns = .ok schema) (hj : j < columns.1.length) :
    RecordPasses schema args j ↔ ColumnPasses columns args j := by
  have hc := List.getElem?_eq_getElem hj
  generalize columns.1[j] = c at hc
  obtain ⟨hin, hname, htype⟩ := record_eq hasc h hc
  have hbegin : ∀ str, strncmpEq c.name str = true ↔ c.name <+: str := fun str =>
    strncmpEq_iff_prefix (hnul c (List.mem_of_getElem? hc))
  rw [RecordPasses, RecordAgrees, hname, htype]
  constructor
  · rintro ⟨-, name, value, hcol, hcmp, hcode⟩
    exact ⟨c, (name, value), hc, hcol, (hbegin name).mp hcmp, (ColumnType.code_inj hcode).symm⟩
  · rintro ⟨c', ⟨name, value⟩, hc', hcol, hpre, heq⟩
    cases hc.symm.trans hc'
    exact ⟨hin, name, value, hcol, (hbegin name).mpr hpre, congrArg ColumnType.code heq.symm⟩

/-- A record differs if the column does so in its type: a name that differs has no null character to be printed
with. -/
theorem recordDiffers_iff (hasc : NamesAscend columns.1) (hnul : ∀ c ∈ columns.1, 0 ∉ c.name)
    (h : schemaPage columns = .ok schema) (hj : j < columns.1.length) :
    RecordDiffers schema args j ↔ TypeDiffers columns args j := by
  have hc := List.getElem?_eq_getElem hj
  generalize columns.1[j] = c at hc
  obtain ⟨hin, hname, htype⟩ := record_eq hasc h hc
  have hzero := hnul c (List.mem_of_getElem? hc)
  have hbegin : ∀ str, strncmpEq c.name str = true ↔ c.name <+: str := fun str => strncmpEq_iff_prefix hzero
  rw [RecordDiffers, hname, htype]
  constructor
  · rintro ⟨-, name, value, hcol, hdiff⟩
    split at hdiff
    · next hcmp => exact ⟨c, (name, value), hc, hcol, (hbegin name).mp hcmp, fun heq => hdiff (heq ▸ rfl)⟩
    · exact absurd hdiff hzero
  · rintro ⟨c', ⟨name, value⟩, hc', hcol, hpre, hne⟩
    cases hc.symm.trans hc'
    refine ⟨hin, name, value, hcol, ?_⟩
    rw [if_pos ((hbegin name).mpr hpre)]
    exact fun hcode => hne (ColumnType.code_inj hcode).symm

/-- Names of ascending length: the check decides as it should for a tuple that conforms and for a difference that can
be reported. -/
theorem checkDecides_iff (hasc : NamesAscend columns.1) (hnul : ∀ c ∈ columns.1, 0 ∉ c.name)
    (h : schemaPage columns = .ok schema) :
    CheckDecides columns schema args ↔ ConformsTo columns args ∨ Reported columns args := by
  by_cases hconf : ConformsTo columns args
  · have hfound : ColumnsFound columns schema := by
      intro j c hc
      obtain ⟨hin, hname, htype⟩ := record_eq hasc h hc
      rw [hname, strncmpEq_iff_prefix (hnul c (List.mem_of_getElem? hc))]
      exact ⟨hin, List.prefix_rfl, htype.symm⟩
    rw [CheckDecides, if_pos hconf]
    exact iff_of_true hfound (.inl hconf)
  · rw [CheckDecides, if_neg hconf, or_iff_right hconf, RecordsDiffer, Reported, schemaPage_byte_zero h,
      List.length_pos_iff]
    refine and_congr_right fun _ => or_congr_right ⟨?_, ?_⟩
    · rintro ⟨j, hj, hdiff, hpass⟩
      exact ⟨j, (recordDiffers_iff hasc hnul h hj).mp hdiff, fun i hi =>
        (recordPasses_iff hasc hnul h (Nat.lt_trans hi hj)).mp (hpass i hi)⟩
    · rintro ⟨j, hdiff, hpass⟩
      have hj : j < columns.1.length := by
        obtain ⟨c, _, hc, -⟩ := hdiff
        exact (List.getElem?_eq_some_iff.mp hc).1
      exact ⟨j, hj, (recordDiffers_iff hasc hnul h hj).mpr hdiff, fun i hi =>
        (recordPasses_iff hasc hnul h (Nat.lt_trans hi hj)).mpr (hpass i hi)⟩

end Ascending

/-- The check does not decide both ways. -/
theorem RecordsPass.not_differ {schema : Page} {args : AddTupleArgs} (h : RecordsPass schema args) :
    ¬ RecordsDiffer schema args := by
  intro hdiff
  have hpass := validate_true.mpr h
  rw [validate_false.mpr hdiff] at hpass
  cases hpass

namespace TableState

variable {schema : Page} {d : DiskManager} {args : AddTupleArgs}

/-- The page with room is page 2. -/
theorem room (h : TableState schema d) (hroom : HasRoom d args) : ∃ page, d.file 2 = some page ∧
    (extractHeader page).freeStart.toNat + 4 + (tupleBytes args).length ≤ (extractHeader page).freeEnd.toNat := by
  obtain ⟨p, page, hp, hpage, hfit⟩ := hroom
  rcases Nat.lt_or_eq_of_le hp with hlt | heq
  · rw [h.rest p hlt] at hpage
    cases hpage
  · obtain rfl : p = 2 := UInt32.toNat_inj.mp heq.symm
    exact ⟨page, hpage, hfit⟩

/-- With room, a tuple is stored exactly if its records pass. -/
theorem stores_iff (h : TableState schema d) (hroom : HasRoom d args) :
    Stores d args ↔ RecordsPass schema args := by
  obtain ⟨free, hdir⟩ := h.directory
  obtain ⟨dir, h0⟩ := h.page0
  obtain ⟨page, h2, hfit⟩ := h.room hroom
  obtain ⟨hstart, -, hend⟩ := h.page2 page h2
  have hsize : (tupleBytes args).length = (tupleSize args).toNat := by
    rw [tupleSize_toNat, Nat.mod_eq_of_lt (by omega)]
  rw [← validate_true]
  constructor
  · rintro ⟨ptr, d', hadd, -⟩
    obtain ⟨_, -, ⟨-, hnone, -⟩ | ⟨_, _, hvalid, -⟩⟩ := addTuple_cases hdir h0 h.page1 hadd
    · cases hnone
    · exact hvalid
  · intro hvalid
    have hoff : ((extractHeader page).freeEnd - tupleSize args).toNat =
        (extractHeader page).freeEnd.toNat - (tupleSize args).toNat :=
      UInt16.toNat_sub_of_le _ _ (UInt16.le_iff_toNat_le.mpr (by omega))
    obtain ⟨d', hadd, -, hfile⟩ := addTuple_ok hdir h0 h.page1 h2 hvalid (by omega)
      (storeTuple_ok hsize (by omega) (by omega) (by omega))
    refine ⟨_, d', hadd, 2, withTuple page (tupleBytes args) (tupleSize args), Nat.le_refl 2,
      by rw [hfile, Disk.write_ne _ _ (by decide), Disk.write_same], hsize.symm, ?_⟩
    rw [hoff, withTuple, slice_construct _ _ (by omega)]
    exact Block.slice_blit _ _ (tupleBytes args) (by omega)

/-- With room, a call changes nothing and returns exactly if the records differ. -/
theorem rejects_iff (h : TableState schema d) (hroom : HasRoom d args) :
    addTuple args d = (.ok none, d) ↔ RecordsDiffer schema args := by
  obtain ⟨free, hdir⟩ := h.directory
  obtain ⟨dir, h0⟩ := h.page0
  obtain ⟨page, h2, hfit⟩ := h.room hroom
  have := h.page2 page h2
  rw [← validate_false]
  constructor
  · intro hadd
    obtain ⟨_, -, ⟨hvalid, -⟩ | ⟨_, _, -, hsome, -⟩⟩ := addTuple_cases hdir h0 h.page1 hadd
    · exact hvalid
    · cases hsome
  · exact fun hvalid => addTuple_rejects hdir h.page1 h2 hvalid (by omega)

/-- A fault of the check is one of the call. -/
theorem addTuple_fault (h : TableState schema d) (hroom : HasRoom d args) {e : Fault}
    (hvalid : validate schema args = .error e) : addTuple args d = (.error e, d) := by
  obtain ⟨free, hdir⟩ := h.directory
  obtain ⟨page, h2, hfit⟩ := h.room hroom
  have := h.page2 page h2
  rw [addTuple, encodeTuple_tupleBytes (by omega), Prog.lift_ok_bind, Prog.bind_ok (findSpaciousPage_first hdir _)]
  simp only
  rw [show UInt32.ofNat 2 = 2 from rfl, Prog.bind_ok (readFile_ok h2), Prog.bind_ok (readFile_ok h.page1), hvalid]
  rfl

/-- What the check decides is what `add_tuple` does. -/
theorem validates_iff (h : TableState schema d) {columns : Columns} (hschema : schemaPage columns = .ok schema)
    (hroom : HasRoom d args) : Validates columns d args ↔ CheckDecides columns schema args := by
  rw [Validates, h.stores_iff hroom, h.rejects_iff hroom, CheckDecides]
  by_cases hconf : ConformsTo columns args
  · rw [if_pos hconf, recordsPass_iff hschema hconf]
    exact ⟨fun h => h.1.mpr hconf, fun h => ⟨iff_of_true h hconf, fun hno => absurd hconf hno⟩⟩
  · rw [if_neg hconf]
    exact ⟨fun h => h.2 hconf, fun h => ⟨iff_of_false (fun hpass => hpass.not_differ h) hconf, fun _ => h⟩⟩

end TableState

/-- **The schema check.** A table is created exactly if the records of its columns lie in the schema page. In every
state of a table with room for a tuple in its page, `add_tuple` stores a tuple exactly if it conforms to the columns
and changes nothing otherwise, exactly if the check decides as it should. -/
theorem add_tuple_validates_iff (columns : Columns) (mem : DiskManager) :
    ((∃ d₀, createTable columns mem = (.ok (), d₀)) ↔ RecordsFit columns.1) ∧
    ∀ (d₀ d : DiskManager) (ops : List HeapOp) (rs : List Unit) (schema : Page) (args : AddTupleArgs),
      createTable columns mem = (.ok (), d₀) → schemaPage columns = .ok schema → RemovesUser ops →
      Prog.runAll heapOp ops d₀ = (.ok rs, d) → HasRoom d args →
      (Validates columns d args ↔ CheckDecides columns schema args) :=
  ⟨createTable_isOk, fun _ _ _ _ _ _ hcreate hschema hops hrun hroom =>
    (TableState.run hcreate hschema hops hrun).validates_iff hschema hroom⟩

/-- A new table with a page just started. -/
theorem newPage_state {columns : Columns} {schema : Page} (mem : DiskManager)
    (hschema : schemaPage columns = .ok schema) :
    ∃ d₀, createTable columns mem = (.ok (), d₀) ∧
      Prog.runAll heapOp [.newPage] d₀ = (.ok [()], d₀.withNewPage) ∧ TableState schema d₀.withNewPage ∧
      ∀ args, (tupleBytes args).length ≤ 4086 → HasRoom d₀.withNewPage args := by
  obtain ⟨d₀, hcreate, hcreated⟩ := createTable_of_schema mem hschema
  have hrun : Prog.runAll heapOp [.newPage] d₀ = (.ok [()], d₀.withNewPage) := by
    refine Prog.runAll_cons_ok ?_ rfl
    rw [heapOp, Prog.bind_ok (newHeapPage_ok hcreated.directory)]
    rfl
  refine ⟨d₀, hcreate, hrun, TableState.run hcreate hschema (by simp [RemovesUser]) hrun, fun args hlen =>
    ⟨2, _, Nat.le_refl 2, withNewPage_file_two d₀, ?_⟩⟩
  rw [newHeapPageBuf, extractHeader_construct]
  simp only [UInt16.reduceToNat]
  omega

theorem add_tuple_validates_iff_flag : ∃ d₀ d, createTable flagColumns blankMemory = (.ok (), d₀) ∧
    Prog.runAll heapOp [.newPage] d₀ = (.ok [()], d) ∧ Validates flagColumns d flagArgs := by
  obtain ⟨d₀, hcreate, hrun, -, hroom⟩ := newPage_state blankMemory schemaPage_flag
  have hnul : ∀ c ∈ flagColumns.1, 0 ∉ c.name := by decide
  have hasc : NamesAscend flagColumns.1 := by
    intro j c c' hj
    exact absurd hj (by simp [flagColumns])
  refine ⟨d₀, _, hcreate, hrun, ?_⟩
  rw [(add_tuple_validates_iff flagColumns blankMemory).2 _ _ _ _ _ _ hcreate schemaPage_flag
    (by simp [RemovesUser]) hrun (hroom flagArgs (by decide)), checkDecides_iff hasc hnul schemaPage_flag]
  exact .inl (by decide)

/-- The name of the only column is the beginning of this one. -/
def longNameArgs : AddTupleArgs := ⟨[([102, 111], .boolean 1)], by decide⟩

/-- This is another name. -/
def otherNameArgs : AddTupleArgs := ⟨[([103], .boolean 1)], by decide⟩

/-- Four columns with the names a, bbb, c and d, and a tuple for them. The last record is written over the one before
it. -/
def unevenColumns : Columns :=
  ⟨[⟨[97], .boolean, Column.length_a⟩, ⟨[98, 98, 98], .boolean, Column.length_bbb⟩,
    ⟨[99], .boolean, Column.length_c⟩, ⟨[100], .boolean, Column.length_d⟩], by decide⟩
def unevenArgs : AddTupleArgs :=
  ⟨[([97], .boolean 1), ([98, 98, 98], .boolean 1), ([99], .boolean 1), ([100], .boolean 1)], by decide⟩

def unevenSchema : Page :=
  ((((Block.zero.blit 0 [4]).blit 1 [1, 97, 1]).blit 4 [3, 98, 98, 98, 1]).blit 11 [1, 99, 1]).blit 10 [1, 100, 1]

/-- A tuple that does not conform is stored, another one is answered by a read past the name of the column, and one
that conforms is rejected. -/
theorem add_tuple_validates_fails :
    (∃ d₀ d, createTable flagColumns blankMemory = (.ok (), d₀) ∧
      Prog.runAll heapOp [.newPage] d₀ = (.ok [()], d) ∧ HasRoom d longNameArgs ∧
      ¬ ConformsTo flagColumns longNameArgs ∧ Stores d longNameArgs ∧ HasRoom d otherNameArgs ∧
      ¬ ConformsTo flagColumns otherNameArgs ∧ addTuple otherNameArgs d = (.error .outOfBounds, d)) ∧
    (∃ d₀ d, createTable unevenColumns blankMemory = (.ok (), d₀) ∧
      Prog.runAll heapOp [.newPage] d₀ = (.ok [()], d) ∧ HasRoom d unevenArgs ∧
      ConformsTo unevenColumns unevenArgs ∧ addTuple unevenArgs d = (.ok none, d)) := by
  constructor
  · obtain ⟨d₀, hcreate, hrun, hstate, hroom⟩ := newPage_state blankMemory schemaPage_flag
    have hroom' := hroom longNameArgs (by decide)
    have hroom₂ := hroom otherNameArgs (by decide)
    refine ⟨d₀, _, hcreate, hrun, hroom', by decide, ?_, hroom₂, by decide, hstate.addTuple_fault hroom₂ (by decide)⟩
    rw [hstate.stores_iff hroom', ← validate_true]
    decide
  · obtain ⟨d₀, hcreate, hrun, hstate, hroom⟩ := newPage_state blankMemory
      (show schemaPage unevenColumns = .ok unevenSchema from rfl)
    have hroom' := hroom unevenArgs (by decide)
    refine ⟨d₀, _, hcreate, hrun, hroom', by decide, ?_⟩
    rw [hstate.rejects_iff hroom', ← validate_false]
    decide

end SomeDB