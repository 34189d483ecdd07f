import SomeDB.Lib.File
import SomeDB.Lib.Simulation
import SomeDB.Utils.CString
import SomeDB.Disk.DiskManager

/-!
# The file behind the pages (`disk_manager.c`)

`table_file`, `read_page` and `write_page` down to the bytes: a path in a buffer of 40 characters, descriptors that
`opendir` and `open` take and nothing gives back, and offsets that are products of 32 bits.

* `pageRun_pages`: while there are descriptors, the file is an array of pages. A page id counts modulo `2 ^ 20`, the
  pages from `2 ^ 19` on cannot be read, and a page that is written behind the end comes after zero pages.
* `pageRun_disk`: if no page id is that large and every page is written at most right behind the last one, the file is
  the map from page ids to pages that `Disk` is. `indexRun_disk` is about the file of a new index.
* `pageRun_descriptors`: each call that returns takes two descriptors or more, and none gives them back. Once they are
  used up, what is written is lost without notice, and what is read ends the program.
-/

namespace SomeDB

open Lib

/-- What a process that works on a table sees of it and of the operating system. -/
structure Process where
  tableName : CString
  file : File
  /-- The directory `db_files` exists. -/
  dir : Bool
  /-- The number of descriptors that it may still open. -/
  descriptors : Nat
  /-- Whether `errno` is `ENOENT` after the next calls of `opendir` that succeed: they need not reset it. -/
  stale : Nat → Bool
  /-- What the next buffers from `malloc` hold. -/
  junk : Nat → Page

abbrev ProcessM (α : Type) := Prog Fault Process α

namespace Process

/-- The string that `sprintf` writes into `path`. -/
def path (p : Process) : CString := "db_files/".toList ++ p.tableName ++ ".db".toList

/-- `opendir(DBFILES_DIR)`: whether `errno` is `ENOENT` afterwards. -/
def opendir : ProcessM Bool := fun p =>
  if p.descriptors = 0 then (.ok false, p)
  else if p.dir then
    (.ok (p.stale 0), { p with descriptors := p.descriptors - 1, stale := fun n => p.stale (n + 1) })
  else (.ok true, p)

/-- `mkdir(DBFILES_DIR, 0700)`. -/
def mkdir : ProcessM Unit := Prog.modify fun p => { p with dir := true }

/-- `open(path, O_CREAT | O_RDWR, 0644)`: whether it gives a descriptor. -/
def openFile : ProcessM Bool := fun p =>
  if p.descriptors = 0 ∨ p.dir = false then (.ok false, p)
  else (.ok true, { p with descriptors := p.descriptors - 1 })

/-- The path is put together, and the file is opened. -/
def openPath : ProcessM Bool := do
  let p ← Prog.get
  if 40 < p.path.length + 1 then Prog.fault .outOfBounds
  else openFile

/-- `table_file`. -/
def tableFile : ProcessM Bool := do
  let missing ← opendir
  if missing then
    mkdir
    let _ ← opendir
    openPath
  else openPath

/-- `malloc(PAGE_SIZE)`. -/
def mallocPage : ProcessM Page := fun p => (.ok (p.junk 0), { p with junk := fun n => p.junk (n + 1) })

theorem mallocPage_eq (p : Process) :
    mallocPage p = (.ok (p.junk 0), { p with junk := fun n => p.junk (n + 1) }) := rfl

/-- `write_page`. Without a descriptor `lseek`, `write` and `fsync` fail, and the call prints that and returns. -/
def writePage (pid : PageId) (data : Page) : ProcessM Unit := do
  if 11 < (sprintfD pid).length + 1 then Prog.fault .outOfBounds
  else
    let opened ← tableFile
    if opened then Prog.modify fun p => { p with file := p.file.write (pid * 4096).toNat data }
    else pure ()

/-- `read_page`. The offset is an `int`; without a descriptor, or before the beginning of the file, `lseek` is -1. -/
def readPage (pid : PageId) : ProcessM Page := do
  let page ← mallocPage
  let opened ← tableFile
  let offset := (pid * 4096).toInt32.toInt
  let p ← Prog.get
  let fsize : Int := if opened then p.file.size else -1
  if fsize ≤ offset then Prog.fault .exit
  else if opened = false ∨ offset < 0 then Prog.fault .exit
  else pure (p.file.read offset.toNat page)

/-- The metadata page of a new index. -/
def indexBuf (maxKeys : UInt8) : Page :=
  let indexBuf := Block.zero.blit 0 (encodeUint32 BTREE_INDEX)
  let indexBuf := indexBuf.blit 4 (encodeUint16 0)
  indexBuf.blit 6 [maxKeys]

/-- `create_btree_index`: whether the index is new. The name is copied into a buffer of 25 characters. -/
def createBtreeIndex (maxKeys : UInt8) : ProcessM Bool := do
  let p ← Prog.get
  if 25 < p.tableName.length + 1 then Prog.fault .outOfBounds
  else
    let opened ← tableFile
    let p ← Prog.get
    if opened = false then pure false
    else if p.file.size ≠ 0 then
      -- this descriptor is closed
      Prog.modify fun p => { p with descriptors := p.descriptors + 1 }
      pure false
    else
      Prog.modify fun p => { p with file := p.file.write 0 (indexBuf maxKeys) }
      pure true

/-- `p'` is `p` with `k` descriptors fewer, as far as there are. -/
structure Takes (k : Nat) (p p' : Process) : Prop where
  tableName : p'.tableName = p.tableName
  file : p'.file = p.file
  junk : p'.junk = p.junk
  descriptors : p'.descriptors = p.descriptors - k

theorem Takes.trans {k l : Nat} {p p' p'' : Process} (h : Takes k p p') (h' : Takes l p' p'') :
    Takes (k + l) p p'' where
  tableName := h'.tableName.trans h.tableName
  file := h'.file.trans h.file
  junk := h'.junk.trans h.junk
  descriptors := by rw [h'.descriptors, h.descriptors, Nat.sub_sub]

section Calls

variable {p : Process}

/-- In a directory that exists `opendir` takes a descriptor. -/
theorem opendir_dir (hdir : p.dir = true) :
    ∃ missing p', opendir p = (.ok missing, p') ∧ Takes 1 p p' ∧ p'.dir = true := by
  unfold opendir
  by_cases h : p.descriptors = 0
  · rw [if_pos h]
    exact ⟨false, p, rfl, ⟨rfl, rfl, rfl, by omega⟩, hdir⟩
  · rw [if_neg h, if_pos hdir]
    exact ⟨p.stale 0, _, rfl, ⟨rfl, rfl, rfl, rfl⟩, hdir⟩

/-- So does the second `opendir`, behind `mkdir`. -/
theorem mkdir_opendir (p : Process) : ∃ p', Takes 1 p p' ∧ p'.dir = true ∧
    ∀ {α : Type} (m : ProcessM α), (do mkdir; let _ ← opendir; m) p = m p' := by
  obtain ⟨missing, p', hopendir, h, hdir⟩ := opendir_dir (p := { p with dir := true }) rfl
  refine ⟨p', ⟨h.tableName, h.file, h.junk, h.descriptors⟩, hdir, fun m => ?_⟩
  rw [mkdir, Prog.modify_bind, Prog.bind_ok hopendir]

/-- And so does `open`, if there is one. -/
theorem openPath_dir (hdir : p.dir = true) (hpath : p.path.length < 40) :
    ∃ p', openPath p = (.ok (decide (1 ≤ p.descriptors)), p') ∧ Takes 1 p p' := by
  rw [openPath, Prog.get_bind, if_neg (by omega), openFile]
  by_cases h : p.descriptors = 0
  · rw [if_pos (.inl h)]
    exact ⟨p, by simp [h], rfl, rfl, rfl, by omega⟩
  · have hone : 1 ≤ p.descriptors := Nat.one_le_iff_ne_zero.mpr h
    rw [if_neg (by simp [h, hdir])]
    exact ⟨{ p with descriptors := p.descriptors - 1 }, by rw [decide_eq_true hone], rfl, rfl, rfl, rfl⟩

/-- The path depends on the name alone. -/
theorem Takes.path {k : Nat} {p' : Process} (h : Takes k p p') : p'.path = p.path := by
  unfold Process.path
  rw [h.tableName]

/-- After `k` descriptors were taken, `open` takes another one. -/
theorem Takes.openPath {k : Nat} {p' : Process} (h : Takes k p p') (hdir : p'.dir = true) (hpath : p.path.length < 40) :
    ∃ p'', Process.openPath p' = (.ok (decide (k + 1 ≤ p.descriptors)), p'') ∧ Takes (k + 1) p p'' := by
  obtain ⟨p'', hopen, h'⟩ := openPath_dir hdir (by rwa [h.path])
  have hk : 1 ≤ p'.descriptors ↔ k + 1 ≤ p.descriptors := by rw [h.descriptors]; omega
  exact ⟨p'', by rw [hopen, decide_eq_decide.mpr hk], h.trans h'⟩

/-- `table_file` takes two descriptors, or three if `errno` says that there is no directory where there is one. It
returns one of them, if there were that many. -/
theorem tableFile_run (hpath : p.path.length < 40) : ∃ k p', (k = 2 ∨ k = 3) ∧
    tableFile p = (.ok (decide (k ≤ p.descriptors)), p') ∧ Takes k p p' := by
  unfold tableFile
  cases hdir : p.dir with
  | true =>
    obtain ⟨missing, p₁, hopendir, h₁, hdir₁⟩ := opendir_dir hdir
    rw [Prog.bind_ok hopendir]
    cases missing with
    | false =>
      obtain ⟨p₂, hopen, h₂⟩ := h₁.openPath hdir₁ hpath
      exact ⟨2, p₂, .inl rfl, hopen, h₂⟩
    | true =>
      obtain ⟨p₂, h₂, hdir₂, hrest⟩ := mkdir_opendir p₁
      obtain ⟨p₃, hopen, h₃⟩ := (h₁.trans h₂).openPath hdir₂ hpath
      exact ⟨3, p₃, .inr rfl, (hrest _).trans hopen, h₃⟩
  | false =>
    by_cases h : p.descriptors = 0
    · -- without a descriptor `opendir` does not say that there is no directory
      have hopendir : opendir p = (.ok false, p) := if_pos h
      have hopen : openPath p = (.ok false, p) := by
        rw [openPath, Prog.get_bind, if_neg (by omega), openFile, if_pos (.inl h)]
      exact ⟨2, p, .inl rfl, by rw [Prog.bind_ok hopendir, if_neg Bool.false_ne_true, hopen]; simp [h], rfl, rfl, rfl,
        by omega⟩
    · have hopendir : opendir p = (.ok true, p) := by rw [opendir, if_neg h, hdir, if_neg Bool.false_ne_true]
      obtain ⟨p₁, h₁, hdir₁, hrest⟩ := mkdir_opendir p
      obtain ⟨p₂, hopen, h₂⟩ := h₁.openPath hdir₁ hpath
      exact ⟨2, p₂, .inl rfl, by rw [Prog.bind_ok hopendir, if_pos rfl, hrest, hopen], h₂⟩

end Calls

end Process

/-! ## Calls on pages -/

/-- `read_page` and `write_page`, on one kind of files. -/
class PageFile (σ : Type) where
  readPage : PageId → Prog Fault σ Page
  writePage : PageId → Page → Prog Fault σ Unit

instance : PageFile Process := ⟨Process.readPage, Process.writePage⟩

instance : PageFile Disk := ⟨readPage, writePage⟩

/-- A file as an array of pages. -/
abbrev PageArray : Type := List Page

namespace PageArray

/-- The place of a page. Offsets are of 32 bits, so the page ids count modulo `2 ^ 20`. -/
def place (pid : PageId) : Nat := pid.toNat % 1048576

/-- `read_page`. The offsets from `2 ^ 31` on are negative. -/
def readPage (pid : PageId) : Prog Fault PageArray Page := do
  let pages ← Prog.get
  if 524288 ≤ place pid then Prog.fault .exit
  else
    match pages[place pid]? with
    | some data => pure data
    | none => Prog.fault .exit

/-- `write_page`. Zero pages fill the places up to a page that is written behind the end. -/
def writePage (pid : PageId) (data : Page) : Prog Fault PageArray Unit :=
  if 11 < (sprintfD pid).length + 1 then Prog.fault .outOfBounds
  else Prog.modify fun pages => overwrite pages (place pid) data

/-- The map from page ids to pages. -/
def disk (pages : PageArray) : Disk := fun pid => pages[pid.toNat]?

end PageArray

instance : PageFile PageArray := ⟨PageArray.readPage, PageArray.writePage⟩

section Calls

variable {σ : Type} [PageFile σ]

/-- `new_btree_index_page`, on any kind of files. -/
def newNodePage (isLeaf : Bool) : Prog Fault σ PageId := do
  let metadataPage ← PageFile.readPage 0
  assert (decodeUint32 (metadataPage.slice 0 4) = BTREE_INDEX)
  let currNodeNum := decodeUint16 (metadataPage.slice 4 2)
  let newNodeNum := currNodeNum + 1
  PageFile.writePage 0 (metadataPage.blit 4 (encodeUint16 newNodeNum))
  PageFile.writePage newNodeNum.toUInt32 (freshNodePage isLeaf)
  pure newNodeNum.toUInt32

theorem newNodePage_disk (isLeaf : Bool) :
    (newNodePage isLeaf : Prog Fault Disk PageId) = newBtreeIndexPage isLeaf := rfl

/-- A call on a file of pages. -/
inductive PageCall where
  | read (pid : PageId)
  | write (pid : PageId) (data : Page)
  | newNode (isLeaf : Bool)

/-- What it returns. -/
inductive PageResult where
  | page (data : Page)
  | written
  | pid (pid : PageId)

def pageCall : PageCall → Prog Fault σ PageResult
  | .read pid => do
    let data ← PageFile.readPage pid
    pure (.page data)
  | .write pid data => do
    PageFile.writePage pid data
    pure .written
  | .newNode isLeaf => do
    let pid ← newNodePage isLeaf
    pure (.pid pid)

end Calls

/-! ## The file as an array of pages -/

/-- The offset of a page. -/
theorem toNat_offset (pid : PageId) : (pid * 4096).toNat = 4096 * PageArray.place pid := by
  have hsize : (4096 : UInt32).toNat = 4096 := rfl
  rw [UInt32.toNat_mul, hsize, PageArray.place]
  omega

theorem toInt_offset (pid : PageId) : (pid * 4096).toInt32.toInt =
    if 524288 ≤ PageArray.place pid then 4096 * (PageArray.place pid : Int) - 4294967296
    else 4096 * (PageArray.place pid : Int) := by
  have hnat := toNat_offset pid
  have hbits : (pid * 4096).toBitVec.toNat = 4096 * PageArray.place pid := hnat
  have hint : (pid * 4096).toInt32.toInt = (pid * 4096).toBitVec.toInt := rfl
  rw [hint, BitVec.toInt_eq_toNat_cond, hbits]
  split <;> split <;> omega

namespace Process

/-- The pages of the file. -/
def pages (p : Process) : PageArray := p.file.blocks 4096

/-- The file consists of whole pages, its path fits in the buffer, and `n` descriptors may still be opened. -/
structure Ready (n : Nat) (p : Process) : Prop where
  whole : 4096 ∣ p.file.size
  path : p.path.length < 40
  enough : n ≤ p.descriptors

theorem Ready.mono {k n : Nat} {p : Process} (h : Ready n p) (hk : k ≤ n) : Ready k p :=
  ⟨h.whole, h.path, Nat.le_trans hk h.enough⟩

section Mirrors

variable {p : Process} {n : Nat}

/-- While there are descriptors, `table_file` returns one. -/
theorem Ready.tableFile (h : Ready (n + 3) p) :
    ∃ p', Process.tableFile p = (.ok true, p') ∧ p'.file = p.file ∧ Ready n p' := by
  obtain ⟨k, p', hk, hrun, htakes⟩ := tableFile_run h.path
  have henough := h.enough
  refine ⟨p', by rw [hrun, decide_eq_true (by omega)], htakes.file, ?_, ?_, ?_⟩
  · rw [htakes.file]
    exact h.whole
  · rw [htakes.path]
    exact h.path
  · rw [htakes.descriptors]
    omega

/-- `read_page` of a page that lies in the file below the offset `2 ^ 31`, and of any other one. -/
theorem readPage_run (h : Ready (n + 3) p) (pid : PageId) : ∃ p', p'.file = p.file ∧ Ready n p' ∧
    readPage pid p = (if PageArray.place pid < 524288 ∧ 4096 * PageArray.place pid < p.file.size then
      .ok (p.file.block 4096 (PageArray.place pid)) else .error .exit, p') := by
  obtain ⟨p', hrun, hfile, hready⟩ := Ready.tableFile (p := { p with junk := fun n => p.junk (n + 1) })
    ⟨h.whole, h.path, h.enough⟩
  refine ⟨p', hfile, hready, ?_⟩
  have hcall : readPage pid p = (if (p'.file.size : Int) ≤ (pid * 4096).toInt32.toInt then Prog.fault .exit
      else if true = false ∨ (pid * 4096).toInt32.toInt < 0 then Prog.fault .exit
      else pure (p'.file.read (pid * 4096).toInt32.toInt.toNat (p.junk 0)) : ProcessM Page) p' := by
    rw [readPage, Prog.bind_ok (mallocPage_eq p), Prog.bind_ok hrun]
    rfl
  have hsize : p'.file = p.file := hfile
  rw [hcall, toInt_offset, hsize]
  by_cases hneg : 524288 ≤ PageArray.place pid
  · -- the offset is negative
    have hplace : PageArray.place pid < 1048576 := Nat.mod_lt _ (by decide)
    rw [if_pos hneg, if_neg (by omega), if_pos (.inr (by omega)), if_neg (by omega)]
    rfl
  rw [if_neg hneg]
  by_cases hpast : p.file.size ≤ 4096 * PageArray.place pid
  · rw [if_pos (by omega), if_neg (by omega)]
    rfl
  · obtain ⟨m, hm⟩ := h.whole
    have hoffset : (4096 * (PageArray.place pid : Int)).toNat = 4096 * PageArray.place pid := by omega
    have hopened : ¬ (true = false ∨ 4096 * (PageArray.place pid : Int) < 0) := by
      rw [not_or]
      exact ⟨Bool.noConfusion, by omega⟩
    rw [if_neg (by omega), if_neg hopened, hoffset, File.read_block (by omega), if_pos (by omega)]
    rfl

theorem readPage_mirrors (h : Ready (n + 3) p) (pid : PageId) :
    Prog.Mirrors pages (readPage pid) (PageArray.readPage pid) p (Ready n) := by
  obtain ⟨p', hfile, hready, hrun⟩ := readPage_run h pid
  have hpages : pages p' = pages p := congrArg (File.blocks 4096) hfile
  refine .of_eq hrun ?_ hready
  obtain ⟨m, hm⟩ := h.whole
  rw [hpages, PageArray.readPage, Prog.get_bind, pages]
  split
  · rw [if_neg (by omega)]
    rfl
  · by_cases hpast : m ≤ PageArray.place pid
    · rw [File.getElem?_blocks_none (by omega), if_neg (by omega)]
      rfl
    · rw [File.getElem?_blocks (by omega), if_pos (by omega)]
      rfl

/-- The page in place `k` is written. -/
theorem pages_write (h : Ready n p) (k : Nat) (data : Page) :
    pages { p with file := p.file.write (4096 * k) data } = overwrite (pages p) k data :=
  File.blocks_write (by decide) h.whole

theorem Ready.write (h : Ready n p) (k : Nat) (data : Page) :
    Ready n { p with file := p.file.write (4096 * k) data } :=
  ⟨File.dvd_size_write h.whole, h.path, h.enough⟩

theorem writePage_mirrors (h : Ready (n + 3) p) (pid : PageId) (data : Page) :
    Prog.Mirrors pages (writePage pid data) (PageArray.writePage pid data) p (Ready n) := by
  unfold writePage PageArray.writePage
  split
  · exact .fault _ (h.mono (by omega))
  obtain ⟨p', hrun, hfile, hready⟩ := h.tableFile
  have hpages : pages p' = pages p := congrArg (File.blocks 4096) hfile
  have hwrite : (if true = true then Prog.modify fun p => { p with file := p.file.write (pid * 4096).toNat data }
      else pure () : ProcessM Unit) p' =
        (.ok (), { p' with file := p'.file.write (4096 * PageArray.place pid) data }) := by
    rw [← toNat_offset]
    rfl
  refine .of_eq ((Prog.bind_ok hrun).trans hwrite) ?_ (hready.write _ data)
  rw [pages_write hready, hpages]
  rfl

theorem newNodePage_mirrors (h : Ready (n + 9) p) (isLeaf : Bool) :
    Prog.Mirrors pages (newNodePage isLeaf) (newNodePage isLeaf) p (Ready n) := by
  refine .bind (readPage_mirrors (n := n + 6) h 0) (fun _ h' => h'.mono (by omega)) fun data p₁ _ h₁ => ?_
  refine .bind (.ite (fun _ => .pure () h₁) fun _ => .fault _ h₁) (fun _ h' => h'.mono (by omega)) fun _ p₂ _ h₂ => ?_
  refine .bind (writePage_mirrors (n := n + 3) h₂ _ _) (fun _ h' => h'.mono (by omega)) fun _ p₃ _ h₃ => ?_
  exact .bind (writePage_mirrors h₃ _ _) (fun _ h' => h') fun _ p₄ _ h₄ => .pure _ h₄

/-- One call. -/
theorem pageCall_mirrors (h : Ready (n + 9) p) (call : PageCall) :
    Prog.Mirrors pages (pageCall call) (pageCall call) p (Ready n) := by
  cases call with
  | read pid => exact .bind (readPage_mirrors (h.mono (by omega)) pid) (fun _ h' => h') fun _ _ _ h' => .pure _ h'
  | write pid data =>
    exact .bind (writePage_mirrors (h.mono (by omega)) pid data) (fun _ h' => h') fun _ _ _ h' => .pure _ h'
  | newNode isLeaf => exact .bind (newNodePage_mirrors h isLeaf) (fun _ h' => h') fun _ _ _ h' => .pure _ h'

end Mirrors

end Process

/-- **An array of pages.** While there are descriptors, a run of calls does what it does on the array of the pages of
the file, fault for fault. -/
theorem pageRun_pages {p : Process} {calls : List PageCall} (h : p.Ready (9 * calls.length)) :
    Prog.Mirrors Process.pages (Prog.runAll pageCall calls) (Prog.runAll pageCall calls) p (Process.Ready 0) :=
  Prog.Mirrors.runAll (C := fun _ _ => True) (I := fun n => Process.Ready (9 * n)) (fun k n p hk h => h.mono (by omega))
    (fun call n p h _ => Process.pageCall_mirrors h call) h (Prog.meets_of_forall (fun _ _ => trivial) _)

/-- A process with an empty file. -/
def Process.start (descriptors : Nat) : Process where
  tableName := "t".toList
  file := File.empty
  dir := true
  descriptors := descriptors
  stale := fun _ => false
  junk := fun _ => Block.zero

/-- Page 1 is written behind the end, and once more under another page id. -/
theorem pageRun_pages_wrapped :
    let calls : List PageCall := [.write 1 (freshNodePage true), .write 1048577 (freshNodePage false), .read 1]
    Prog.Mirrors Process.pages (Prog.runAll pageCall calls) (Prog.runAll pageCall calls) (Process.start 27)
      (Process.Ready 0) :=
  pageRun_pages ⟨by decide, by decide, by decide⟩

/-! ## The file as a map of pages -/

/-- Page `pid` is below `2 ^ 19`, and lies in the file or right behind its end. -/
def Appends (d : Disk) (pid : PageId) : Prop := pid.toNat < 524288 ∧ (pid = 0 ∨ (d (pid - 1)).isSome = true)

instance (d : Disk) (pid : PageId) : Decidable (Appends d pid) := inferInstanceAs (Decidable (_ ∧ _))

/-- The pages of a call lie in the file, or right behind its end if they are written. -/
def Near (d : Disk) : PageCall → Prop
  | .read pid => pid.toNat < 524288
  | .write pid _ => Appends d pid
  | .newNode _ =>
    match d 0 with
    | some metadataPage => Appends d (decodeUint16 (metadataPage.slice 4 2) + 1).toUInt32
    | none => True

instance (d : Disk) : (call : PageCall) → Decidable (Near d call)
  | .read pid => inferInstanceAs (Decidable (pid.toNat < 524288))
  | .write pid _ => inferInstanceAs (Decidable (Appends d pid))
  | .newNode _ =>
    match h : d 0 with
    | some metadataPage =>
      decidable_of_iff (Appends d (decodeUint16 (metadataPage.slice 4 2) + 1).toUInt32) (by simp [Near, h])
    | none => isTrue (by simp [Near, h])

theorem Appends.write {d : Disk} {pid q : PageId} (h : Appends d pid) (data : Page) : Appends (d.write q data) pid := by
  refine ⟨h.1, h.2.imp_right fun hbefore => ?_⟩
  unfold Disk.write
  split
  · rfl
  · exact hbefore

/-- Only page ids from `2 ^ 31` on, which are printed as negative numbers, can be too long for the buffer. -/
theorem sprintfD_length {pid : PageId} (h : pid.toNat < 524288) : (sprintfD pid).length < 11 := by
  have hlen : (sprintfU pid.toNat).length ≤ 10 :=
    (Nat.length_toDigits_le_iff (by decide) (by decide)).mpr (by omega)
  rw [sprintfD_of_lt (by omega)]
  exact Nat.lt_succ_of_le hlen

namespace PageArray

variable {pages : PageArray}

theorem place_of_lt {pid : PageId} (h : pid.toNat < 524288) : place pid = pid.toNat := Nat.mod_eq_of_lt (by omega)

/-- The page before the place where one is appended. -/
theorem length_of_appends {pid : PageId} (h : Appends pages.disk pid) : pid.toNat ≤ pages.length := by
  rcases h.2 with rfl | hbefore
  · exact Nat.zero_le _
  · obtain ⟨data, hdata⟩ := Option.isSome_iff_exists.mp hbefore
    obtain ⟨hlt, -⟩ := List.getElem?_eq_some_iff.mp hdata
    have hpid := pid.toNat_lt
    have hone : (1 : UInt32).toNat = 1 := rfl
    rw [UInt32.toNat_sub, hone] at hlt
    omega

/-- A page that is written in the file or right behind its end. -/
theorem disk_overwrite {pid : PageId} (data : Page) (h : Appends pages.disk pid) :
    disk (overwrite pages (place pid) data) = pages.disk.write pid data := by
  have hlen := length_of_appends h
  funext q
  rw [place_of_lt h.1, disk]
  by_cases hq : q = pid
  · rw [hq, getElem?_overwrite_same, Disk.write_same]
  · have hne : q.toNat ≠ pid.toNat := fun he => hq (UInt32.toNat_inj.mp he)
    rw [getElem?_overwrite_ne hne (by omega), Disk.write_ne _ _ hq]
    rfl

theorem readPage_mirrors {pid : PageId} (h : pid.toNat < 524288) :
    Prog.Mirrors disk (readPage pid) (SomeDB.readPage pid) pages fun _ => True := by
  unfold Prog.Mirrors readPage SomeDB.readPage
  rw [Prog.get_bind, place_of_lt h, if_neg (by omega)]
  have hdisk : pages.disk pid = pages[pid.toNat]? := rfl
  cases hdata : pages[pid.toNat]? with
  | some data => exact ⟨pages, by rw [hdisk, hdata]; rfl, by rw [hdisk, hdata], trivial⟩
  | none => exact ⟨pages, by rw [hdisk, hdata]; rfl, by rw [hdisk, hdata], trivial⟩

theorem writePage_mirrors {pid : PageId} (data : Page) (h : Appends pages.disk pid) :
    Prog.Mirrors disk (writePage pid data) (SomeDB.writePage pid data) pages fun _ => True := by
  have hlen := sprintfD_length h.1
  have hwrite : writePage pid data pages = (.ok (), overwrite pages (place pid) data) := by
    rw [writePage, if_neg (by omega)]
    rfl
  refine .of_eq hwrite ?_ trivial
  rw [disk_overwrite data h]
  rfl

theorem newNodePage_mirrors {isLeaf : Bool} (h : Near pages.disk (.newNode isLeaf)) :
    Prog.Mirrors disk (newNodePage isLeaf) (newBtreeIndexPage isLeaf) pages fun _ => True := by
  rw [← newNodePage_disk]
  have hmetadata : (0 : PageId).toNat < 524288 := by decide
  refine .bind (readPage_mirrors hmetadata) (fun _ h' => h') fun metadataPage p₁ hread _ => ?_
  obtain ⟨hmeta, hp₁⟩ := readPage_eq_ok hread
  simp only [Near, hmeta] at h
  rw [hp₁] at h
  refine .bind (J := fun p => p.disk = p₁.disk) ?_ (fun _ _ => trivial) fun _ p₂ _ hp₂ => ?_
  · exact .ite (fun _ => .pure () rfl) fun _ => .fault _ rfl
  refine .bind (writePage_mirrors _ ⟨by decide, .inl rfl⟩) (fun _ h' => h') fun _ p₃ hwrite _ => ?_
  refine .bind (writePage_mirrors _ ?_) (fun _ h' => h') fun _ p₄ _ _ => .pure _ trivial
  rw [← (Prod.mk.inj hwrite).2, hp₂]
  exact h.write _

/-- One call. -/
theorem pageCall_mirrors {call : PageCall} (h : Near pages.disk call) :
    Prog.Mirrors disk (pageCall call) (pageCall call) pages fun _ => True := by
  cases call with
  | read pid => exact .bind (readPage_mirrors h) (fun _ h' => h') fun _ _ _ _ => .pure _ trivial
  | write pid data => exact .bind (writePage_mirrors data h) (fun _ h' => h') fun _ _ _ _ => .pure _ trivial
  | newNode isLeaf => exact .bind (newNodePage_mirrors h) (fun _ h' => h') fun _ _ _ _ => .pure _ trivial

end PageArray

/-- The file as the map from page ids to pages. -/
def Process.disk (p : Process) : Disk := p.pages.disk

/-- **A map of pages.** While there are descriptors, a run of calls on pages that are near does what it does on the map
from page ids to pages that the file is, fault for fault. -/
theorem pageRun_disk {p : Process} {calls : List PageCall} (h : p.Ready (9 * calls.length))
    (hnear : Prog.Meets pageCall Near calls p.disk) :
    Prog.Mirrors Process.disk (Prog.runAll pageCall calls) (Prog.runAll pageCall calls) p (Process.Ready 0) := by
  refine Prog.Mirrors.runAll (I := fun n => Process.Ready (9 * n)) (fun k n p hk h => h.mono (by omega)) ?_ h hnear
  intro call n p h hcall
  exact ((Process.pageCall_mirrors h call).trans (PageArray.pageCall_mirrors hcall)).mono fun _ h' => h'.1

section NewIndex

variable {p : Process} {maxKeys : UInt8} {n : Nat}

/-- A file of one page. -/
theorem disk_singleton (data : Page) : PageArray.disk [data] = fun pid => if pid = 0 then some data else none := by
  funext pid
  by_cases hpid : pid = 0
  · rw [hpid]
    rfl
  · have hpos : 1 ≤ pid.toNat := Nat.one_le_iff_ne_zero.mpr fun h => hpid (UInt32.toNat_inj.mp h)
    rw [PageArray.disk, List.getElem?_eq_none hpos, if_neg hpid]

/-- The file that `create_btree_index` leaves is the one of `createBtreeIndex`. -/
theorem createBtreeIndex_run (h : p.Ready (n + 3)) (hname : p.tableName.length < 25) (hempty : p.file.size = 0) :
    ∃ p', p.createBtreeIndex maxKeys = (.ok true, p') ∧ p'.disk = createBtreeIndex maxKeys ∧ p'.Ready n := by
  obtain ⟨p₁, hrun, hfile, hready⟩ := h.tableFile
  have hsize : p₁.file.size = 0 := by rw [hfile, hempty]
  have hpages : p₁.pages = [] := List.length_eq_zero_iff.mp (by rw [Process.pages, File.blocks_length, hsize])
  refine ⟨{ p₁ with file := p₁.file.write 0 (Process.indexBuf maxKeys) }, ?_, ?_, hready.write 0 _⟩
  · rw [Process.createBtreeIndex, Prog.get_bind, if_neg (by omega), Prog.bind_ok hrun, Prog.get_bind,
      if_neg (by decide), if_neg (by simp [hsize])]
    rfl
  · have hwritten := Process.pages_write hready 0 (Process.indexBuf maxKeys)
    rw [hpages] at hwritten
    rw [Process.disk, hwritten]
    exact disk_singleton _

/-- **A new index.** While there are descriptors, a run of calls on pages that are near, on the file that
`create_btree_index` made, does what it does on the map from page ids to pages. -/
theorem indexRun_disk {calls : List PageCall} (h : p.Ready (9 * calls.length + 3)) (hname : p.tableName.length < 25)
    (hempty : p.file.size = 0) (hnear : Prog.Meets pageCall Near calls (createBtreeIndex maxKeys)) :
    ∃ p₁ p₂, p.createBtreeIndex maxKeys = (.ok true, p₁) ∧
      Prog.runAll pageCall calls p₁ = ((Prog.runAll pageCall calls (createBtreeIndex maxKeys)).1, p₂) ∧
      p₂.disk = (Prog.runAll pageCall calls (createBtreeIndex maxKeys)).2 := by
  obtain ⟨p₁, hrun, hdisk, hready⟩ := createBtreeIndex_run h hname hempty
  obtain ⟨p₂, hcalls, hdisk₂, -⟩ := pageRun_disk hready (by rwa [hdisk])
  rw [hdisk] at hcalls hdisk₂
  exact ⟨p₁, p₂, hrun, hcalls, hdisk₂⟩

theorem indexRun_disk_two :
    let calls : List PageCall := [.newNode true, .newNode false]
    ∃ p₁ p₂, (Process.start 21).createBtreeIndex 4 = (.ok true, p₁) ∧
      Prog.runAll pageCall calls p₁ = ((Prog.runAll pageCall calls (createBtreeIndex 4)).1, p₂) ∧
      p₂.disk = (Prog.runAll pageCall calls (createBtreeIndex 4)).2 :=
  indexRun_disk ⟨by decide, by decide, by decide⟩ (by decide) rfl (by decide)

end NewIndex

/-! ## Without descriptors -/

namespace Process

/-- The descriptors do not suffice for a call any more, and the file is `file`. -/
structure Spent (file : File) (p : Process) : Prop where
  file : p.file = file
  path : p.path.length < 40
  few : p.descriptors ≤ 1

section Spent

variable {file : File} {p : Process}

theorem Spent.tableFile (h : Spent file p) : ∃ p', Process.tableFile p = (.ok false, p') ∧ Spent file p' := by
  obtain ⟨k, p', hk, hrun, htakes⟩ := tableFile_run h.path
  have hfew := h.few
  refine ⟨p', by rw [hrun, decide_eq_false (by omega)], htakes.file.trans h.file, ?_, ?_⟩
  · rw [htakes.path]
    exact h.path
  · rw [htakes.descriptors]
    omega

/-- What is read ends the program. -/
theorem Spent.readPage (h : Spent file p) (pid : PageId) :
    ∃ p', Process.readPage pid p = (.error .exit, p') ∧ Spent file p' := by
  obtain ⟨p', hrun, hspent⟩ := Spent.tableFile (p := { p with junk := fun n => p.junk (n + 1) })
    ⟨h.file, h.path, h.few⟩
  refine ⟨p', ?_, hspent⟩
  rw [Process.readPage, Prog.bind_ok (mallocPage_eq p), Prog.bind_ok hrun,
    Prog.get_bind, if_neg Bool.false_ne_true]
  by_cases hpast : -1 ≤ (pid * 4096).toInt32.toInt
  · rw [if_pos hpast]
    rfl
  · rw [if_neg hpast, if_pos (.inl rfl)]
    rfl

/-- What is written is lost. -/
theorem Spent.writePage (h : Spent file p) {pid : PageId} (hpid : (sprintfD pid).length < 11) (data : Page) :
    ∃ p', Process.writePage pid data p = (.ok (), p') ∧ Spent file p' := by
  obtain ⟨p', hrun, hspent⟩ := h.tableFile
  refine ⟨p', ?_, hspent⟩
  rw [Process.writePage, if_neg (by omega), Prog.bind_ok hrun]
  rfl

theorem Spent.newNodePage (h : Spent file p) (isLeaf : Bool) :
    ∃ p', SomeDB.newNodePage isLeaf p = (.error .exit, p') ∧ Spent file p' := by
  obtain ⟨p', hrun, hspent⟩ := h.readPage 0
  exact ⟨p', Prog.bind_error hrun, hspent⟩

/-- One call. -/
theorem Spent.pageCall (h : Spent file p) (call : PageCall) :
    Prog.Ensures (SomeDB.pageCall call) p (fun _ p' => Spent file p') (Spent file) := by
  cases call with
  | read pid =>
    obtain ⟨p', hrun, hspent⟩ := h.readPage pid
    exact .of_error (Prog.bind_error hrun) hspent
  | write pid data =>
    by_cases hpid : (sprintfD pid).length < 11
    · obtain ⟨p', hrun, hspent⟩ := h.writePage hpid data
      exact .of_ok (Prog.bind_ok hrun) hspent
    · have hover : Process.writePage pid data p = (.error .outOfBounds, p) := by
        rw [Process.writePage, if_pos (by omega)]
        rfl
      exact .of_error (Prog.bind_error hover) h
  | newNode isLeaf =>
    obtain ⟨p', hrun, hspent⟩ := h.newNodePage isLeaf
    exact .of_error (Prog.bind_error hrun) hspent

end Spent

/-- The path is the same, and two descriptors fewer are left, as far as there were. -/
structure Spends (p p' : Process) : Prop where
  path : p'.path = p.path
  descriptors : p'.descriptors ≤ p.descriptors - 2

section Spends

variable {p : Process}

theorem Spends.trans {p' p'' : Process} (h : Spends p p') (h' : Spends p' p'') : Spends p p'' where
  path := h'.path.trans h.path
  descriptors := by
    have := h.descriptors
    have := h'.descriptors
    omega

theorem tableFile_spends (hpath : p.path.length < 40) :
    Prog.Ensures tableFile p (fun _ p' => Spends p p') fun _ => True := by
  obtain ⟨k, p', hk, hrun, htakes⟩ := tableFile_run hpath
  refine .of_ok hrun ⟨htakes.path, ?_⟩
  rw [htakes.descriptors]
  omega

theorem readPage_spends (hpath : p.path.length < 40) (pid : PageId) :
    Prog.Ensures (readPage pid) p (fun _ p' => Spends p p') fun _ => True := by
  refine .bind (R := fun _ p₁ => p₁ = _) (.of_ok (mallocPage_eq p) rfl) ?_
  rintro page _ rfl
  refine .bind (tableFile_spends (p := { p with junk := fun n => p.junk (n + 1) }) hpath) fun opened p₂ h₂ => ?_
  apply Prog.Ensures.get_bind
  dsimp only
  generalize (if opened = true then (p₂.file.size : Int) else -1) = fsize
  split
  · exact .fault trivial
  · split
    · exact .fault trivial
    · exact .pure ⟨h₂.path, h₂.descriptors⟩

theorem writePage_spends (hpath : p.path.length < 40) (pid : PageId) (data : Page) :
    Prog.Ensures (writePage pid data) p (fun _ p' => Spends p p') fun _ => True := by
  unfold writePage
  split
  · exact .fault trivial
  · refine .bind (tableFile_spends hpath) fun opened p₁ h₁ => ?_
    split
    · exact .modify ⟨h₁.path, h₁.descriptors⟩
    · exact .pure h₁

/-- One call that returns. -/
theorem pageCall_spends (hpath : p.path.length < 40) (call : PageCall) :
    Prog.Ensures (pageCall call) p (fun _ p' => Spends p p') fun _ => True := by
  have hrest : ∀ {p₁ : Process}, Spends p p₁ → p₁.path.length < 40 := fun h => by rwa [h.path]
  cases call with
  | read pid => exact .bind (readPage_spends hpath pid) fun _ _ h => .pure h
  | write pid data => exact .bind (writePage_spends hpath pid data) fun _ _ h => .pure h
  | newNode isLeaf =>
    refine .bind (R := fun _ p' => Spends p p') ?_ fun _ _ h => .pure h
    refine .bind (readPage_spends hpath 0) fun metadataPage p₁ h₁ => ?_
    refine .bind (R := fun _ p' => Spends p p') ?_ fun _ p₂ h₂ => ?_
    · unfold assert
      split
      · exact .pure h₁
      · exact .fault trivial
    refine .bind (writePage_spends (hrest h₂) _ _) fun _ p₃ h₃ => ?_
    exact .bind (writePage_spends (hrest (h₂.trans h₃)) _ _) fun _ p₄ h₄ => .pure ((h₂.trans h₃).trans h₄)

end Spends

end Process

/-- **Used up.** A run of calls that returned has taken two descriptors for each. Where they do not suffice for another
call, `read_page` and `new_btree_index_page` end the program, `write_page` returns, and no call changes the file. -/
theorem pageRun_descriptors {p p' : Process} {calls : List PageCall} {rs : List PageResult}
    (hpath : p.path.length < 40) (hfew : p.descriptors ≤ 2 * calls.length + 1)
    (hrun : Prog.runAll pageCall calls p = (.ok rs, p')) :
    (∀ pid, ∃ p'', Process.readPage pid p' = (.error .exit, p'')) ∧
      (∀ isLeaf, ∃ p'', newNodePage isLeaf p' = (.error .exit, p'')) ∧
      (∀ pid data, (sprintfD pid).length < 11 → ∃ p'', Process.writePage pid data p' = (.ok (), p'')) ∧
      ∀ more, (Prog.runAll pageCall more p').2.file = p'.file := by
  have hinv : p'.path.length < 40 ∧ p'.descriptors ≤ p.descriptors - 2 * calls.length := by
    refine Prog.runAll_inv_of_ok (C := fun _ _ => True)
      (fun is p₁ => p₁.path.length < 40 ∧ p₁.descriptors ≤ p.descriptors - 2 * is.length) ?_ ⟨hpath, Nat.le_refl _⟩
      (Prog.meets_of_forall (fun _ _ => trivial) _) hrun
    intro is p₁ call r p₂ h _ hcall
    have hspends := (Process.pageCall_spends h.1 call).1 r p₂ hcall
    have hdescriptors := hspends.descriptors
    refine ⟨by rw [hspends.path]; exact h.1, ?_⟩
    rw [List.length_append, List.length_singleton]
    omega
  have hspent : p'.Spent p'.file := ⟨rfl, hinv.1, by omega⟩
  refine ⟨fun pid => ?_, fun isLeaf => ?_, fun pid data hpid => ?_, fun more => ?_⟩
  · obtain ⟨p'', h, -⟩ := hspent.readPage pid
    exact ⟨p'', h⟩
  · obtain ⟨p'', h, -⟩ := hspent.newNodePage isLeaf
    exact ⟨p'', h⟩
  · obtain ⟨p'', h, -⟩ := hspent.writePage hpid data
    exact ⟨p'', h⟩
  · refine (Prog.Ensures.final ?_ : Process.Spent p'.file _).file
    exact Prog.runAll_ensures (C := fun _ _ => True) (fun p₁ call h _ => h.pageCall call) hspent
      (Prog.meets_of_forall (fun _ _ => trivial) _)

theorem pageRun_descriptors_three :
    let p := (Prog.runAll pageCall [.write 0 (freshNodePage true)] (Process.start 3)).2
    (∀ pid, ∃ p', Process.readPage pid p = (.error .exit, p')) ∧
      (∀ isLeaf, ∃ p', newNodePage isLeaf p = (.error .exit, p')) ∧
      (∀ pid data, (sprintfD pid).length < 11 → ∃ p', Process.writePage pid data p = (.ok (), p')) ∧
      ∀ more, (Prog.runAll pageCall more p).2.file = p.file :=
  have hrun : Prog.runAll pageCall [.write 0 (freshNodePage true)] (Process.start 3) = (.ok [.written], _) := rfl
  pageRun_descriptors (by decide) (by decide) hrun

end SomeDB
