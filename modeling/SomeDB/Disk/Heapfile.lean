import SomeDB.Disk.DiskManager
import SomeDB.Utils.Hash

/-!
# Heap files (`heapfile.c`)

A table file has the page directory in page 0, the schema in page 1 and slotted pages from page 2 on. A
slotted page:

| offset | size | field |
|--------|------|-------|
| 0      | 2    | `free_start` |
| 2      | 2    | `free_end` |
| 4      | 1    | flags |
| 5      | 4 each | tuple pointers: offset of the tuple (0: removed) and size |
| `free_end` | | tuples, the last one first |

The directory in memory maps a page id to a heap-allocated counter. `find_spacious_page` compares the
pointer to the counter, and not the counter, with the size that is needed; `HeapPtr` is such a pointer.
-/

namespace SomeDB

open Lib

/-- `MAX_PAGES`. -/
abbrev MAX_PAGES : Nat := 500

/-- `START_USER_PAGE`. -/
abbrev START_USER_PAGE : Nat := 2

/-- `TUPLE_PTR_SIZE`. -/
abbrev TUPLE_PTR_SIZE : Nat := 4

/-- `COMPACTABLE`. -/
def COMPACTABLE : UInt8 := 128

/-- An address that `malloc` returns. The lowest 64 KiB of the address space are never mapped. -/
def HeapPtr : Type := { a : Nat // 65536 ≤ a }

theorem HeapPtr.lowest_le : 65536 ≤ 65536 := Nat.le_refl _

/-- A counter of free bytes on the heap. -/
structure FreeSpace where
  ptr : HeapPtr
  value : UInt16

/-- `DiskManager` of a table, with its file. `mallocs` are the addresses of the next counters and `junk` is
what the next page buffers hold when they are allocated. -/
structure DiskManager where
  file : Disk
  pageDirectory : HashTable FreeSpace
  mallocs : Nat → HeapPtr
  junk : Nat → Page

abbrev HeapM (α : Type) := Prog Fault DiskManager α

/-- `ColumnType`. -/
inductive ColumnType where
  | boolean
  | string
  | integer
  | decimal
  deriving DecidableEq, Repr

/-- The value of the enumerator. -/
def ColumnType.code : ColumnType → UInt8
  | .boolean => 1
  | .string => 2
  | .integer => 3
  | .decimal => 4

/-- `Column`; `name_len` is the length of the name. -/
structure Column where
  name : List UInt8
  type : ColumnType
  name_len : name.length < 256
  deriving DecidableEq

theorem Column.length_a : ([97] : List UInt8).length < 256 := by decide

theorem Column.length_c : ([99] : List UInt8).length < 256 := by decide

theorem Column.length_d : ([100] : List UInt8).length < 256 := by decide

theorem Column.length_bbb : ([98, 98, 98] : List UInt8).length < 256 := by decide

/-- `Column *columns` with `uint8_t n_columns`. -/
abbrev Columns := { cs : List Column // cs.length < 256 }

/-- A `ColumnValue` with the `ColumnType` that says which member of the union it is. A string is given
without its null character, a double as its bytes in memory. -/
inductive ColumnValue where
  | boolean (value : UInt8)
  | integer (value : Int32)
  | decimal (value : Block 8)
  | string (value : List UInt8)

def ColumnValue.type : ColumnValue → ColumnType
  | .boolean _ => .boolean
  | .integer _ => .integer
  | .decimal _ => .decimal
  | .string _ => .string

/-- `AddTupleArgs`: the columns with their names, and no more of them than a `uint8_t` counts. -/
abbrev AddTupleArgs := { cols : List (List UInt8 × ColumnValue) // cols.length < 256 }

/-- `Header` without the page id. -/
structure Header where
  freeStart : UInt16
  freeEnd : UInt16
  flags : UInt8
  deriving DecidableEq

/-- `TuplePtr`. -/
structure TuplePtr where
  startOffset : UInt16
  size : UInt16
  deriving DecidableEq, Repr

/-! ## The page directory -/

/-- Run a program on the directory in memory. -/
def onDirectory {α : Type} (p : HashM FreeSpace α) : HeapM α :=
  Prog.zoom (·.pageDirectory) (fun d ht => { d with pageDirectory := ht }) p

/-- Run a program on the file. -/
def onFile {α : Type} (p : Prog Fault Disk α) : HeapM α :=
  Prog.zoom (·.file) (fun d file => { d with file := file }) p

/-- A counter on the heap. -/
def newFreeSpace (value : UInt16) : HeapM FreeSpace := fun d =>
  (.ok ⟨d.mallocs 0, value⟩, { d with mallocs := fun n => d.mallocs (n + 1) })

/-- `find_spacious_page` over the page ids that are left. -/
def findSpaciousPage (sizeNeeded : UInt16) : List Nat → HeapM (Option Nat)
  | [] => pure none
  | pid :: pids => do
    match ← onDirectory (hashFind true (sprintfU pid)) with
    | some found =>
      if sizeNeeded.toNat ≤ found.data.ptr.1 then pure (some pid) else findSpaciousPage sizeNeeded pids
    | none => findSpaciousPage sizeNeeded pids

/-- The user pages, in the order of the loop. -/
def userPages : List Nat := List.range' START_USER_PAGE (MAX_PAGES - START_USER_PAGE)

/-- `total_buf`: an entry of the directory on disk. -/
def dirEntry (pid : Nat) (freeSpace : UInt16) : List UInt8 :=
  encodeUint16 (UInt16.ofNat pid) ++ encodeUint16 freeSpace

/-- `PID_TO_PAGE_DIRECTORY_OFFSET`. -/
def pidToPageDirectoryOffset (pid : Nat) : Nat := pid * 2

/-- `update_page_dir` with `TUPLE_ADD`. -/
def updatePageDir (pid : Nat) (tupleSize : UInt16) : HeapM Unit := do
  let found ← onDirectory (hashFind true (sprintfU pid))
  let currFreeSpace := (← Prog.lift (deref found)).value
  let _ ← onDirectory (hashRemove true (sprintfU pid))
  let freeSpace ← newFreeSpace (currFreeSpace - tupleSize)
  onDirectory (hashInsert true (sprintfU pid) freeSpace)
  let page ← onFile (readPage 0)
  onFile (writePage 0 (page.blit (pidToPageDirectoryOffset pid) (dirEntry pid freeSpace.value)))

/-! ## Tables -/

/-- The bytes of a column in the schema page. -/
def Column.bytes (c : Column) : List UInt8 := UInt8.ofNat c.name.length :: (c.name ++ [c.type.code])

/-- `SCHEMA_COLUMN_SIZE`. -/
def schemaColumnSize (nameLen : Nat) : Nat := 1 + nameLen + 1

theorem Column.bytes_length (c : Column) : c.bytes.length = schemaColumnSize c.name.length := by
  simp only [Column.bytes, schemaColumnSize, List.length_cons, List.length_append, List.length_nil]
  omega

/-- The loop of `create_table` over the columns. The column `j` is written at `j` times the size of the
column before it. -/
def writeColumns : List Column → Nat → Nat → Page → Except Fault Page
  | [], _, _, colBuf => .ok colBuf
  | c :: cs, j, colSize, colBuf => do
    let colBuf ← memcpy colBuf (1 + j * colSize) c.bytes
    writeColumns cs (j + 1) (schemaColumnSize c.name.length) colBuf

/-- The columns metadata page. -/
def schemaPage (columns : Columns) : Except Fault Page :=
  writeColumns columns.1 0 0 (Block.zero.blit 0 [UInt8.ofNat columns.1.length])

/-- The page directory as `create_table` writes it, entry by entry. -/
def directoryPage : Page :=
  (List.range MAX_PAGES).foldl (fun page pid => page.blit (pid * 4) (dirEntry pid 4096)) Block.zero

/-- The loop of `create_table` that fills the directory in memory. -/
def fillDirectory : List Nat → HeapM Unit
  | [] => pure ()
  | pid :: pids => do
    let freeSpace ← newFreeSpace 4096
    onDirectory (hashInsert true (sprintfU pid) freeSpace)
    fillDirectory pids

/-- What `create_table` does once it has an empty file and an empty directory. -/
def fillTable (columns : Columns) : HeapM Unit := do
  fillDirectory userPages
  onFile (writePage 0 directoryPage)
  let page ← Prog.lift (schemaPage columns)
  onFile (writePage 1 page)

/-- `create_table` of a table that does not exist yet. The addresses and the contents of memory are those
of `mem`. -/
def createTable (columns : Columns) (mem : DiskManager) : Except Fault Unit × DiskManager :=
  fillTable columns { mem with file := fun _ => none, pageDirectory := initHash FreeSpace 500 }

/-! ## Slotted pages -/

/-- `extract_header`. -/
def extractHeader (page : Page) : Header where
  freeStart := decodeUint16 (page.slice 0 2)
  freeEnd := decodeUint16 (page.slice 2 2)
  flags := page.byte 4

/-- `TUPLE_INDEX_TO_TUPLE_POINTER_OFFSET` of a `uint32_t`: the product wraps, what is added to the page does not. -/
def tuplePtrOffset (slotNum : UInt32) : Nat := 5 + (slotNum * 4).toNat

/-- `extract_tuple_ptr`. -/
def extractTuplePtr (page : Page) (slotNum : UInt32) : Except Fault TuplePtr :=
  let off := tuplePtrOffset slotNum
  if off + 4 ≤ 4096 then .ok ⟨decodeUint16 (page.slice off 2), decodeUint16 (page.slice (off + 2) 2)⟩
  else .error .outOfBounds

/-- `construct_page_header_buf`. -/
def constructPageHeaderBuf (page : Page) (header : Header) : Page :=
  page.blit 0 (encodeUint16 header.freeStart ++ encodeUint16 header.freeEnd ++ [header.flags])

/-- The bytes of a tuple pointer. -/
def TuplePtr.bytes (p : TuplePtr) : List UInt8 := encodeUint16 p.startOffset ++ encodeUint16 p.size

/-- `construct_page_tuple_ptr`. -/
def constructPageTuplePtr (page : Page) (slotNum : UInt32) (p : TuplePtr) : Except Fault Page :=
  memcpy page (tuplePtrOffset slotNum) p.bytes

/-- The page that `new_heap_page` writes, on the buffer that it allocates. -/
def newHeapPageBuf (page : Page) : Page :=
  constructPageHeaderBuf page ⟨5, 4095, 0⟩

/-- `new_heap_page`. -/
def newHeapPage : HeapM PageId := fun d =>
  (do
    match ← findSpaciousPage 4096 userPages with
    | none => pure 0
    | some pid => do
      onFile (writePage (UInt32.ofNat pid) (newHeapPageBuf (d.junk 0)))
      pure (UInt32.ofNat pid) : HeapM PageId)
  { d with junk := fun n => d.junk (n + 1) }

/-! ## Tuples -/

/-- The bytes of a value in a tuple. The length of a string is stored as a `uint16_t`, and as many of its
characters. -/
def ColumnValue.bytes : ColumnValue → List UInt8
  | .boolean b => [if b = 0 then 0 else 1]
  | .integer i => encodeUint32 i.toUInt32
  | .decimal d => d.slice 0 8
  | .string s =>
    encodeUint16 (UInt16.ofNat s.length) ++ s.take (UInt16.ofNat s.length).toNat

/-- The number of bytes that the first loop of `add_tuple` counts for a value. -/
def ColumnValue.size : ColumnValue → UInt16
  | .boolean _ => 1
  | .integer _ => 4
  | .decimal _ => 8
  | .string s => 2 + UInt16.ofNat s.length

/-- `tuple_size`. -/
def tupleSize (args : AddTupleArgs) : UInt16 :=
  args.1.foldl (fun size col => size + col.2.size) 0

/-- The loop of `add_tuple` that fills `tuple_buf`, which has `size` bytes: each value is written where the
one before it ends. -/
def encodeTuple (size : Nat) : List ColumnValue → List UInt8 → Except Fault (List UInt8)
  | [], tupleBuf => .ok tupleBuf
  | v :: vs, tupleBuf =>
    if tupleBuf.length + v.bytes.length ≤ size then encodeTuple size vs (tupleBuf ++ v.bytes)
    else .error .outOfBounds

/-- `strncmp(buf, str, buf.length) == 0` for a null-terminated `str`. -/
def strncmpEq : List UInt8 → List UInt8 → Bool
  | [], _ => true
  | a :: buf, str =>
    if a = str.headD 0 then (if a = 0 then true else strncmpEq buf str.tail) else false

/-- A byte of the schema page behind `START_COLUMNS_INFO`. -/
def schemaByte (schema : Page) (off : Nat) : Except Fault UInt8 :=
  if 1 + off < 4096 then .ok (schema.byte (1 + off)) else .error .outOfBounds

/-- `fprintf` of `col_name_buf` with `%s` reads up to a null character. The array has the bytes of the name and no
null character behind them. -/
def printColName (colNameBuf : List UInt8) : Except Fault Unit :=
  if 0 ∈ colNameBuf then .ok () else .error .outOfBounds

/-- The loop of `add_tuple` that compares the arguments with the schema. The column `i` is looked for at `i`
times the size of the column that was read before. A name that differs is printed together with the one of the
schema. -/
def validateLoop (schema : Page) (colsNum : Nat) (args : AddTupleArgs) :
    Nat → Nat → Nat → Except Fault Bool
  | 0, _, _ => .ok true
  | n + 1, i, schemaCurrOffset => do
    let nameLenBuf ← schemaByte schema schemaCurrOffset
    let schemaCurrOffset := i * (1 + nameLenBuf.toNat + 1)
    let colNameLen := (← schemaByte schema schemaCurrOffset).toNat
    let dataType ← schemaByte schema (schemaCurrOffset + colNameLen + 1)
    if args.1.length ≠ colsNum then .ok false
    else
      match args.1[i]? with
      | none => .error .outOfBounds
      | some (name, value) =>
        let colNameBuf := schema.slice (1 + schemaCurrOffset + 1) colNameLen
        if !strncmpEq colNameBuf name then do
          printColName colNameBuf
          .ok false
        else if value.type.code ≠ dataType then .ok false
        else validateLoop schema colsNum args n (i + 1) schemaCurrOffset

/-- Do the columns of the arguments conform to the schema page? -/
def validate (schema : Page) (args : AddTupleArgs) : Except Fault Bool :=
  validateLoop schema (schema.byte 0).toNat args (schema.byte 0).toNat 0 0

/-- The page with the tuple written to it, and the pointer to the tuple. -/
def storeTuple (page : Page) (tupleBuf : List UInt8) (tupleSize : UInt16) :
    Except Fault (Page × TuplePtr) := do
  let header := extractHeader page
  let tuplePtr : TuplePtr := ⟨header.freeEnd - tupleSize, tupleSize⟩
  let page ← memcpy page header.freeStart.toNat tuplePtr.bytes
  if header.freeEnd.toNat < tupleSize.toNat then .error .outOfBounds
  else
    let page ← memcpy page (header.freeEnd.toNat - tupleSize.toNat) tupleBuf
    let header := { header with
      freeStart := header.freeStart + 4, freeEnd := header.freeEnd - tupleSize }
    .ok (constructPageHeaderBuf page header, tuplePtr)

/-- `add_tuple`: what `tup_ptr_out` is set to, or none if the columns do not conform to the schema. The
address of the page id is compared with null, never its value; a page is always found. -/
def addTuple (args : AddTupleArgs) : HeapM (Option TuplePtr) := do
  let size := tupleSize args
  let tupleBuf ← Prog.lift (encodeTuple size.toNat (args.1.map (·.2)) [])
  match ← findSpaciousPage size userPages with
  | none => Prog.fault .outOfBounds
  | some pid => do
    let page ← onFile (readPage (UInt32.ofNat pid))
    let schema ← onFile (readPage 1)
    if ← Prog.lift (validate schema args) then do
      let (page, tuplePtr) ← Prog.lift (storeTuple page tupleBuf size)
      onFile (writePage (UInt32.ofNat pid) page)
      updatePageDir pid size
      pure (some tuplePtr)
    else pure none

/-- The page of `remove_tuple` with the tuple marked as removed. -/
def markRemoved (page : Page) (slotNum : UInt32) : Except Fault Page := do
  let tuplePtr ← extractTuplePtr page slotNum
  let header := extractHeader page
  let page ← constructPageTuplePtr page slotNum { tuplePtr with startOffset := 0 }
  .ok (constructPageHeaderBuf page { header with flags := header.flags ||| COMPACTABLE })

/-- `remove_tuple`. -/
def removeTuple (rid : RID) : HeapM Unit := do
  let page ← onFile (readPage rid.pid)
  let page ← Prog.lift (markRemoved page rid.slotNum)
  onFile (writePage rid.pid page)

/-- `get_tuple`: the page that was read and the offset of the tuple in it. -/
def getTuple (rid : RID) : HeapM (Option (Page × Nat)) := do
  let page ← onFile (readPage rid.pid)
  let tuplePtr ← Prog.lift (extractTuplePtr page rid.slotNum)
  if tuplePtr.startOffset = 0 then pure none
  else pure (some (page, tuplePtr.startOffset.toNat))

/-! ## Defragmentation -/

/-- `TUPLE_POINTER_OFFSET_TO_TUPLE_INDEX`. -/
def tuplePtrIndex (offset : UInt16) : UInt32 := UInt32.ofNat ((offset.toNat - 5) / 4)

/-- The loop of `defragment` over the tuple pointers of `temp`, the page as it is on disk; `page` and `header`
are the new ones. The tuple pointer is read before the bound is checked. The offset takes 16384 values before it
comes back to one that it had. (`temp_tuple_offset` is never read.) -/
def defragmentLoop (temp : Page) (oldFreeStart : UInt16) :
    Nat → UInt16 → Page → Header → Except Fault (Page × Header)
  | 0, _, _, _ => .error .diverges
  | n + 1, tempTupPtrOffset, page, header => do
    let tupPtr ← extractTuplePtr temp (tuplePtrIndex tempTupPtrOffset)
    if tupPtr.size = 0 ∨ tempTupPtrOffset > oldFreeStart then .ok (page, header)
    else if tupPtr.startOffset = 0 then
      -- removed tuples' offsets are 0 so skip them
      defragmentLoop temp oldFreeStart n (tempTupPtrOffset + 4) page header
    else
      -- transfer tuple content to new page
      let tuple ← readBytes temp tupPtr.startOffset.toNat tupPtr.size.toNat
      if header.freeEnd.toNat < tupPtr.size.toNat then .error .outOfBounds
      else
        let page ← memcpy page (header.freeEnd.toNat - tupPtr.size.toNat) tuple
        let header := { header with freeEnd := header.freeEnd - tupPtr.size }
        -- transfer tuple pointer to new page
        let ptr ← readBytes temp tempTupPtrOffset.toNat 4
        let page ← memcpy page header.freeStart.toNat ptr
        let header := { header with freeStart := header.freeStart + 4 }
        defragmentLoop temp oldFreeStart n (tempTupPtrOffset + 4) page header

/-- `malloc(PAGE_SIZE)`: what the buffer holds. -/
def mallocPage : HeapM Page := fun d => (.ok (d.junk 0), { d with junk := fun n => d.junk (n + 1) })

/-- `defragment`. -/
def defragment (pid : PageId) : HeapM Unit := do
  let oldHeader := extractHeader (← onFile (readPage pid))
  if oldHeader.flags &&& COMPACTABLE = 0 then pure ()
  else
    let page ← mallocPage
    let temp ← onFile (readPage pid)
    let (page, header) ← Prog.lift (defragmentLoop temp oldHeader.freeStart 16384 5 page ⟨5, 4095, 0⟩)
    let header := { header with flags := oldHeader.flags &&& ~~~COMPACTABLE }
    onFile (writePage pid (constructPageHeaderBuf page header))

/-- A call on a table. -/
inductive HeapOp where
  | newPage
  | add (args : AddTupleArgs)
  | remove (rid : RID)

def heapOp : HeapOp → HeapM Unit
  | .newPage => do let _ ← newHeapPage
  | .add args => do let _ ← addTuple args
  | .remove rid => removeTuple rid

end SomeDB
