import SomeDB.Disk.ClockReplacer
import SomeDB.Disk.Heapfile
import SomeDB.Lib.Latch

/-!
# The latches (`hash.c`, `clock_replacer.c`, `heapfile.c`)

Elsewhere the latches of the hash tables, the clock replacers and the disk managers are left out. Here they are put
in: `Latched` has the functions that take a latch, with each `RWLOCK_WRLOCK` and each `RWLOCK_UNLOCK` where the
source has it, and on each of the paths that return. A replacer calls its frame table and a disk manager its page
directory, which have latches of their own. `Unlatched` has the same functions without latches and with all the
arguments of the source.

A function of `Latched` follows the one of `Unlatched` and leaves the latches as they were, except that `evict`
does not release the latch of a replacer without frames.
-/

namespace SomeDB

open Lib LatchM

/-! ## The functions with their latches -/

namespace Latched

variable {L : Type} [DecidableEq L] {α : Type}

/-- `hash_insert` of a table with the latch `l`. A null key and null data are none. -/
def hashInsert (l : L) : Option CString → Option α → LatchM Fault L (HashTable α) Unit
  | some key, some data => do
    lock l
    run (SomeDB.hashInsert true key data)
    unlock l
  | _, _ => pure ()

/-- `hash_remove`. -/
def hashRemove (l : L) (key : Option CString) : LatchM Fault L (HashTable α) Removed := do
  lock l
  match key with
  | none => Prog.fault (.fault .nullPointer)
  | some key =>
    match ← run (SomeDB.hashRemove true key) with
    | .absent => do
      unlock l
      pure .absent
    | removed => do
      unlock l
      pure removed

/-- Run a program on the frame table of a replacer. -/
def onFrameTable (m : LatchM Fault L (HashTable FrameInfo) α) : LatchM Fault L ClockReplacer α :=
  on (·.frameTable) (fun r ht => { r with frameTable := ht }) m

/-- `hash_remove` on the frame table, with the latch `lt`. -/
def removeKey (lt : L) (key : CString) : LatchM Fault L ClockReplacer Unit := do
  let r ← run Prog.get
  let removed ← onFrameTable (hashRemove lt (some key))
  run (freeString (freedEl key r.frameTable removed))

/-- The end of `evict` for a frame without its reference bit. -/
def takeFrameOut (lt : L) (id : Nat) (frame : CString) : LatchM Fault L ClockReplacer Nat := do
  removeKey lt frame
  let r ← run Prog.get
  if id ∈ r.dangling then Prog.fault (.fault .freed)
  else do
    run (removeFrame frame)
    pure (frameIdOf frame)

/-- The loop of `evict`. -/
def evictLoop (l lt : L) : Nat → LatchM Fault L ClockReplacer (Option Nat)
  | 0 => do
    unlock l
    pure none
  | n + 1 => do
    let r ← run Prog.get
    match r.hand with
    | none => Prog.fault (.fault .nullPointer)
    | some id =>
      match r.frames.nodes.find? fun x => x.id = id with
      | none => Prog.fault (.fault .freed)
      | some node =>
        if id ∈ r.dangling then Prog.fault (.fault .freed)
        else do
          let found ← run (SomeDB.onFrameTable (hashFind true node.value))
          let info ← run (Prog.lift (deref found))
          if info.ref then do
            onFrameTable (hashInsert lt (some node.value) (some ⟨false, id⟩))
            let next ← run (onFrames (circularListNext id))
            run (Prog.modify fun r => { r with hand := next })
            evictLoop l lt n
          else do
            let frame ← takeFrameOut lt id node.value
            unlock l
            pure (some frame)

/-- `evict`. The path of an empty list returns without `RWLOCK_UNLOCK`. -/
def evict (l lt : L) : LatchM Fault L ClockReplacer (Option Nat) := do
  lock l
  let r ← run Prog.get
  if r.frames.size = 0 then pure none
  else do
    if r.hand = none then run (Prog.modify fun r => { r with hand := r.frames.nodes.head?.map (·.id) })
    evictLoop l lt r.frames.size

/-- `clock_replacer_unpin`. -/
def clockReplacerUnpin (l lt : L) (frame : UInt32) : LatchM Fault L ClockReplacer Unit := do
  lock l
  match ← run (onFrames (circularListInsert (frameToStr frame))) with
  | none => unlock l
  | some id => do
    onFrameTable (hashInsert lt (some (frameToStr frame)) (some ⟨true, id⟩))
    unlock l

/-- `clock_replacer_pin`. -/
def clockReplacerPin (l lt : L) (frame : UInt32) : LatchM Fault L ClockReplacer Unit := do
  lock l
  removeKey lt (frameToStr frame)
  run (removeFrame (frameToStr frame))
  unlock l

/-- `new_heap_page`. -/
def newHeapPage (l : L) : LatchM Fault L DiskManager PageId := do
  let page ← run mallocPage
  match ← run (findSpaciousPage 4096 userPages) with
  | none => pure 0
  | some pid => do
    lock l
    run (onFile (writePage (UInt32.ofNat pid) (newHeapPageBuf page)))
    unlock l
    pure (UInt32.ofNat pid)

/-- Run a program on the page directory of a disk manager. -/
def onDirectory (m : LatchM Fault L (HashTable FreeSpace) α) : LatchM Fault L DiskManager α :=
  on (·.pageDirectory) (fun d ht => { d with pageDirectory := ht }) m

/-- `update_page_dir` with `TUPLE_ADD`. -/
def updatePageDir (lt : L) (pid : Nat) (tupleSize : UInt16) : LatchM Fault L DiskManager Unit := do
  let found ← run (SomeDB.onDirectory (hashFind true (sprintfU pid)))
  let currFreeSpace ← run (Prog.lift (deref found))
  let _ ← onDirectory (hashRemove lt (some (sprintfU pid)))
  let freeSpace ← run (newFreeSpace (currFreeSpace.value - tupleSize))
  onDirectory (hashInsert lt (some (sprintfU pid)) (some freeSpace))
  let page ← run (onFile (readPage 0))
  run (onFile (writePage 0 (page.blit (pidToPageDirectoryOffset pid) (dirEntry pid freeSpace.value))))

/-- The loop of `add_tuple` that compares the arguments with the schema. Each of its three errors releases the
latch. -/
def validateLoop (l : L) (schema : Page) (colsNum : Nat) (args : AddTupleArgs) :
    Nat → Nat → Nat → LatchM Fault L DiskManager Bool
  | 0, _, _ => pure true
  | n + 1, i, schemaCurrOffset => do
    let nameLenBuf ← run (Prog.lift (schemaByte schema schemaCurrOffset))
    let schemaCurrOffset := i * (1 + nameLenBuf.toNat + 1)
    let colNameLen ← run (Prog.lift (schemaByte schema schemaCurrOffset))
    let dataType ← run (Prog.lift (schemaByte schema (schemaCurrOffset + colNameLen.toNat + 1)))
    if args.1.length ≠ colsNum then do
      unlock l
      pure false
    else
      match args.1[i]? with
      | none => Prog.fault (.fault .outOfBounds)
      | some (name, value) =>
        let colNameBuf := schema.slice (1 + schemaCurrOffset + 1) colNameLen.toNat
        if !strncmpEq colNameBuf name then do
          run (Prog.lift (printColName colNameBuf))
          unlock l
          pure false
        else if value.type.code ≠ dataType then do
          unlock l
          pure false
        else validateLoop l schema colsNum args n (i + 1) schemaCurrOffset

/-- `add_tuple`. `pidNull`: there is no memory for the page id. -/
def addTuple (l lt : L) (args : AddTupleArgs) (pidNull : Bool) :
    LatchM Fault L DiskManager (Option TuplePtr) := do
  let size := tupleSize args
  let tupleBuf ← run (Prog.lift (encodeTuple size.toNat (args.1.map (·.2)) []))
  lock l
  match ← run (findSpaciousPage size userPages) with
  | none =>
    if pidNull then do
      unlock l
      pure none
    else Prog.fault (.fault .outOfBounds)
  | some pid =>
    if pidNull then Prog.fault (.fault .nullPointer)
    else do
      let page ← run (onFile (readPage (UInt32.ofNat pid)))
      let schema ← run (onFile (readPage 1))
      if ← validateLoop l schema (schema.byte 0).toNat args (schema.byte 0).toNat 0 0 then do
        let (page, tuplePtr) ← run (Prog.lift (storeTuple page tupleBuf size))
        run (onFile (writePage (UInt32.ofNat pid) page))
        updatePageDir lt pid size
        unlock l
        pure (some tuplePtr)
      else pure none

/-- `remove_tuple`. -/
def removeTuple (l : L) (rid : RID) : LatchM Fault L DiskManager Unit := do
  lock l
  let page ← run (onFile (readPage rid.pid))
  let page ← run (Prog.lift (markRemoved page rid.slotNum))
  run (onFile (writePage rid.pid page))
  unlock l

end Latched

/-! ## The functions without latches -/

namespace Unlatched

/-- `hash_insert`: null arguments insert nothing. -/
def hashInsert {α : Type} : Option CString → Option α → HashM α Unit
  | some key, some data => SomeDB.hashInsert true key data
  | _, _ => pure ()

/-- `hash_remove`: `atoi` reads the key. -/
def hashRemove {α : Type} : Option CString → HashM α Removed
  | none => Prog.fault .nullPointer
  | some key => SomeDB.hashRemove true key

/-- `clock_replacer_unpin` of any frame id. -/
def clockReplacerUnpin (frame : UInt32) : ClockM Unit := do
  match ← onFrames (circularListInsert (frameToStr frame)) with
  | none => pure ()
  | some id => onFrameTable (SomeDB.hashInsert true (frameToStr frame) ⟨true, id⟩)

/-- `clock_replacer_pin` of any frame id. -/
def clockReplacerPin (frame : UInt32) : ClockM Unit := do
  removeKey (frameToStr frame)
  removeFrame (frameToStr frame)

/-- `add_tuple`. Without memory for the page id, the id of a page that is found is written through a null pointer. -/
def addTuple (args : AddTupleArgs) : Bool → HeapM (Option TuplePtr)
  | false => SomeDB.addTuple args
  | true => do
    let size := tupleSize args
    let _ ← Prog.lift (encodeTuple size.toNat (args.1.map (·.2)) [])
    match ← findSpaciousPage size userPages with
    | none => pure none
    | some _ => Prog.fault .nullPointer

/-- Below `2 ^ 31` the string of a frame is its decimal number. -/
theorem clockReplacerUnpin_eq {frame : UInt32} (h : frame.toNat < 2147483648) :
    clockReplacerUnpin frame = SomeDB.clockReplacerUnpin frame.toNat := by
  unfold clockReplacerUnpin
  rw [frameToStr_of_lt h]
  rfl

theorem clockReplacerPin_eq {frame : UInt32} (h : frame.toNat < 2147483648) :
    clockReplacerPin frame = SomeDB.clockReplacerPin frame.toNat := by
  unfold clockReplacerPin
  rw [frameToStr_of_lt h]
  rfl

end Unlatched

/-! ## Each function follows the one without latches -/

namespace Latched

section

variable {L : Type} [DecidableEq L] {α : Type} {W : L → Prop} {h : L → Bool} {l lt : L}

theorem hashInsert_follows (hW : h l = true → W l) (key : Option CString) (data : Option α) (ht : HashTable α) :
    Follows W (hashInsert l key data) (Unlatched.hashInsert key data) h (fun _ => h) ht := by
  unfold hashInsert Unlatched.hashInsert
  split
  · refine .lock_bind hW fun hl => .bind_last (.run _) fun _ _ => ?_
    exact .unlock hl
  · exact .pure rfl

theorem hashRemove_follows (hW : h l = true → W l) (key : Option CString) (ht : HashTable α) :
    Follows W (hashRemove l key) (Unlatched.hashRemove key) h (fun _ => h) ht := by
  unfold hashRemove
  refine .lock_bind hW fun hl => ?_
  cases key with
  | none => exact .fault _
  | some key =>
    refine .bind_last (.run _) fun removed _ => ?_
    cases removed with
    | absent => exact .unlock_bind hl (.pure rfl)
    | head => exact .unlock_bind hl (.pure rfl)
    | linked => exact .unlock_bind hl (.pure rfl)

theorem removeKey_follows (hW : h lt = true → W lt) (key : CString) (r : ClockReplacer) :
    Follows W (removeKey lt key) (SomeDB.removeKey key) h (fun _ => h) r := by
  unfold removeKey SomeDB.removeKey
  refine .get_bind (.bind (.on ?_) fun removed _ _ => .run _)
  exact hashRemove_follows hW (some key) _

theorem takeFrameOut_follows (hW : h lt = true → W lt) (id : Nat) (frame : CString) (r : ClockReplacer) :
    Follows W (takeFrameOut lt id frame) (SomeDB.takeFrameOut id frame) h (fun _ => h) r := by
  unfold takeFrameOut SomeDB.takeFrameOut
  refine .bind (removeKey_follows hW frame r) fun _ r _ => .get_bind ?_
  split
  · exact .fault _
  · exact .bind (.run _) fun _ _ _ => .pure rfl

theorem evictLoop_follows (hl : h l = false) (hne : lt ≠ l) (hW : h lt = true → W lt) (n : Nat) (r : ClockReplacer) :
    Follows W (evictLoop l lt n) (SomeDB.evictLoop n) (Function.update h l true) (fun _ => h) r := by
  have hW' := waits_update hne hW
  induction n generalizing r with
  | zero => exact .unlock_bind hl (.pure rfl)
  | succ n ih =>
    unfold evictLoop SomeDB.evictLoop
    refine .get_bind ?_
    cases r.hand with
    | none => exact .fault _
    | some id =>
      simp only
      cases r.frames.nodes.find? fun x => x.id = id with
      | none => exact .fault _
      | some node =>
        simp only
        split
        · exact .fault _
        · refine .bind (.run _) fun found r _ => .bind (.run _) fun info r _ => ?_
          split
          · -- the bit is cleared: the table has a latch of its own
            refine .bind (.on (hashInsert_follows hW' (some _) (some _) _)) fun _ r _ => ?_
            exact .bind (.run _) fun next r _ => .bind (.run _) fun _ r _ => ih r
          · refine .bind (takeFrameOut_follows hW' id node.value r) fun frame r _ => ?_
            exact .unlock_bind hl (.pure rfl)

/-- A list that is not empty. -/
theorem evict_follows (hW : ∀ l, h l = true → W l) (hne : lt ≠ l) {r : ClockReplacer} (hsize : r.frames.size ≠ 0) :
    Follows W (evict l lt) SomeDB.evict h (fun _ => h) r := by
  unfold evict SomeDB.evict
  refine .lock_bind (hW l) fun hl => .get_bind ?_
  rw [if_neg hsize, if_neg hsize]
  split
  · exact .bind (.run _) fun _ r _ => evictLoop_follows hl hne (hW lt) _ r
  · exact evictLoop_follows hl hne (hW lt) _ r

/-- An empty list: the latch is held afterwards. -/
theorem evict_empty (hl : h l = false) {r : ClockReplacer} (hsize : r.frames.size = 0) :
    evict l lt ⟨r, h⟩ = (.ok none, ⟨r, Function.update h l true⟩) := by
  have hlock : (lock l : LatchM Fault L ClockReplacer Unit) ⟨r, h⟩ = (.ok (), ⟨r, Function.update h l true⟩) := by
    simp only [lock, hl, Bool.false_eq_true, if_false]
  unfold evict
  rw [Prog.bind_ok hlock, Prog.bind_ok (show run Prog.get _ = (.ok r, _) from rfl), if_pos hsize]
  rfl

theorem clockReplacerUnpin_follows (hW : ∀ l, h l = true → W l) (hne : lt ≠ l) (frame : UInt32) (r : ClockReplacer) :
    Follows W (clockReplacerUnpin l lt frame) (Unlatched.clockReplacerUnpin frame) h (fun _ => h) r := by
  have hW' := waits_update hne (hW lt)
  unfold clockReplacerUnpin Unlatched.clockReplacerUnpin
  refine .lock_bind (hW l) fun hl => .bind (.run _) fun node r _ => ?_
  cases node with
  | none => exact .unlock hl
  | some id =>
    refine .bind_last (.on (hashInsert_follows hW' (some _) (some _) _)) fun _ _ => ?_
    exact .unlock hl

theorem clockReplacerPin_follows (hW : ∀ l, h l = true → W l) (hne : lt ≠ l) (frame : UInt32) (r : ClockReplacer) :
    Follows W (clockReplacerPin l lt frame) (Unlatched.clockReplacerPin frame) h (fun _ => h) r := by
  have hW' := waits_update hne (hW lt)
  unfold clockReplacerPin Unlatched.clockReplacerPin
  refine .lock_bind (hW l) fun hl => .bind (removeKey_follows hW' _ r) fun _ r _ => ?_
  exact .bind_last (.run _) fun _ _ => .unlock hl

theorem newHeapPage_follows (hW : h l = true → W l) (d : DiskManager) :
    Follows W (newHeapPage l) SomeDB.newHeapPage h (fun _ => h) d := by
  have hplain : SomeDB.newHeapPage = (do
      let page ← mallocPage
      match ← findSpaciousPage 4096 userPages with
      | none => pure 0
      | some pid => do
        onFile (writePage (UInt32.ofNat pid) (newHeapPageBuf page))
        pure (UInt32.ofNat pid)) := rfl
  rw [hplain]
  unfold newHeapPage
  refine .bind (.run _) fun page d _ => .bind (.run _) fun found d _ => ?_
  cases found with
  | none => exact .pure rfl
  | some pid => exact .lock_bind hW fun hl => .bind (.run _) fun _ d _ => .unlock_bind hl (.pure rfl)

theorem updatePageDir_follows (hW : h lt = true → W lt) (pid : Nat) (tupleSize : UInt16) (d : DiskManager) :
    Follows W (updatePageDir lt pid tupleSize) (SomeDB.updatePageDir pid tupleSize) h (fun _ => h) d := by
  unfold updatePageDir SomeDB.updatePageDir
  refine .bind (.run _) fun found d _ => .bind (.run _) fun currFreeSpace d _ => ?_
  refine .bind (.on (hashRemove_follows hW (some _) _)) fun _ d _ => .bind (.run _) fun freeSpace d _ => ?_
  refine .bind (.on (hashInsert_follows hW (some _) (some _) _)) fun _ d _ => ?_
  exact .bind (.run _) fun page d _ => .run _

/-- The loop releases the latch if the columns do not conform to the schema, and only then. -/
theorem validateLoop_follows (hl : h l = false) (schema : Page) (colsNum : Nat) (args : AddTupleArgs) (n i off : Nat)
    (d : DiskManager) :
    Follows W (validateLoop l schema colsNum args n i off) (Prog.lift (SomeDB.validateLoop schema colsNum args n i off))
      (Function.update h l true) (fun ok => if ok then Function.update h l true else h) d := by
  induction n generalizing i off with
  | zero => exact .pure rfl
  | succ n ih =>
    unfold validateLoop SomeDB.validateLoop
    refine .lift_bind fun nameLenBuf => .lift_bind fun colNameLen => .lift_bind fun dataType => ?_
    split
    · exact .unlock_bind hl (.pure rfl)
    · cases args.1[i]? with
      | none => exact .fault _
      | some col =>
        simp only
        split
        · exact .lift_bind fun _ => .unlock_bind hl (.pure rfl)
        · split
          · exact .unlock_bind hl (.pure rfl)
          · exact ih _ _

theorem addTuple_follows (hW : h l = true → W l) (hWt : h lt = true → W lt) (hne : lt ≠ l) (args : AddTupleArgs)
    (pidNull : Bool) (d : DiskManager) :
    Follows W (addTuple l lt args pidNull) (Unlatched.addTuple args pidNull) h (fun _ => h) d := by
  have hW' := waits_update hne hWt
  unfold addTuple
  cases pidNull with
  | true =>
    refine .bind (.run _) fun tupleBuf d _ => .lock_bind hW fun hl => .bind (.run _) fun found d _ => ?_
    cases found with
    | none => exact .unlock_bind hl (.pure rfl)
    | some pid => exact .fault _
  | false =>
    refine .bind (.run _) fun tupleBuf d _ => .lock_bind hW fun hl => .bind (.run _) fun found d _ => ?_
    cases found with
    | none => exact .fault _
    | some pid =>
      refine .bind (.run _) fun page d _ => .bind (.run _) fun schema d _ => ?_
      refine .bind (validateLoop_follows hl schema _ args _ 0 0 d) fun ok d _ => ?_
      cases ok with
      | false => exact .pure rfl
      | true =>
        refine .bind (.run _) fun stored d _ => .bind (.run _) fun _ d _ => ?_
        refine .bind (updatePageDir_follows hW' pid _ d) fun _ d _ => ?_
        exact .unlock_bind hl (.pure rfl)

theorem removeTuple_follows (hW : h l = true → W l) (rid : RID) (d : DiskManager) :
    Follows W (removeTuple l rid) (SomeDB.removeTuple rid) h (fun _ => h) d := by
  unfold removeTuple SomeDB.removeTuple
  refine .lock_bind hW fun hl => .bind (.run _) fun page d _ => .bind (.run _) fun page d _ => ?_
  exact .bind_last (.run _) fun _ _ => .unlock hl

end

/-! ## All objects of a program -/

/-- The hash tables: those that were made by themselves, and those inside of the other objects. The argument is the
address of the object. -/
inductive TablePtr where
  | table (p : Nat)
  | frameTable (replacer : Nat)
  | pageDirectory (diskManager : Nat)
  deriving DecidableEq

/-- The latch of a `HashTable`, a `ClockReplacer` or a `DiskManager`. -/
inductive Latch where
  | hashTable (ht : TablePtr)
  | clockReplacer (p : Nat)
  | diskManager (p : Nat)
  deriving DecidableEq

/-- The data of a table. -/
def TablePtr.Data (α : Type) : TablePtr → Type
  | .table _ => α
  | .frameTable _ => FrameInfo
  | .pageDirectory _ => FreeSpace

/-- The objects at their addresses. -/
structure Objects (α : Type) where
  tables : Nat → HashTable α
  replacers : Nat → ClockReplacer
  diskManagers : Nat → DiskManager

namespace Objects

variable {α : Type}

def setReplacer (p : Nat) (s : Objects α) (r : ClockReplacer) : Objects α :=
  { s with replacers := Function.update s.replacers p r }

def setDiskManager (p : Nat) (s : Objects α) (d : DiskManager) : Objects α :=
  { s with diskManagers := Function.update s.diskManagers p d }

def hashTable (s : Objects α) : (ht : TablePtr) → HashTable (ht.Data α)
  | .table p => s.tables p
  | .frameTable p => (s.replacers p).frameTable
  | .pageDirectory p => (s.diskManagers p).pageDirectory

def setHashTable (s : Objects α) : (ht : TablePtr) → HashTable (ht.Data α) → Objects α
  | .table p, t => { s with tables := Function.update s.tables p t }
  | .frameTable p, t => s.setReplacer p { s.replacers p with frameTable := t }
  | .pageDirectory p, t => s.setDiskManager p { s.diskManagers p with pageDirectory := t }

end Objects

/-- A call of a function that takes a latch. -/
inductive LatchOp (α : Type) where
  | insert (ht : TablePtr) (key : Option CString) (data : Option (ht.Data α))
  | remove (ht : TablePtr) (key : Option CString)
  | unpin (replacer : Nat) (frame : UInt32)
  | pin (replacer : Nat) (frame : UInt32)
  | evict (replacer : Nat)
  | newPage (diskManager : Nat)
  | add (diskManager : Nat) (args : AddTupleArgs) (pidNull : Bool)
  | removeTuple (diskManager : Nat) (rid : RID)

/-- The latch of the object that is called. -/
def LatchOp.latch {α : Type} : LatchOp α → Latch
  | .insert ht _ _ => .hashTable ht
  | .remove ht _ => .hashTable ht
  | .unpin p _ => .clockReplacer p
  | .pin p _ => .clockReplacer p
  | .evict p => .clockReplacer p
  | .newPage p => .diskManager p
  | .add p _ _ => .diskManager p
  | .removeTuple p _ => .diskManager p

section

variable {α β : Type}

def onHashTable (ht : TablePtr) (m : LatchM Fault Latch (HashTable (ht.Data α)) β) :
    LatchM Fault Latch (Objects α) β :=
  on (·.hashTable ht) (·.setHashTable ht) m

def onReplacer (p : Nat) (m : LatchM Fault Latch ClockReplacer β) : LatchM Fault Latch (Objects α) β :=
  on (·.replacers p) (Objects.setReplacer p) m

def onDiskManager (p : Nat) (m : LatchM Fault Latch DiskManager β) : LatchM Fault Latch (Objects α) β :=
  on (·.diskManagers p) (Objects.setDiskManager p) m

/-- A call. -/
def latchOp : LatchOp α → LatchM Fault Latch (Objects α) Unit
  | .insert ht key data => onHashTable ht (hashInsert (.hashTable ht) key data)
  | .remove ht key => do let _ ← onHashTable ht (hashRemove (.hashTable ht) key)
  | .unpin p frame =>
    onReplacer p (clockReplacerUnpin (.clockReplacer p) (.hashTable (.frameTable p)) frame)
  | .pin p frame => onReplacer p (clockReplacerPin (.clockReplacer p) (.hashTable (.frameTable p)) frame)
  | .evict p => do let _ ← onReplacer p (evict (.clockReplacer p) (.hashTable (.frameTable p)))
  | .newPage p => do let _ ← onDiskManager p (newHeapPage (.diskManager p))
  | .add p args pidNull => do
    let _ ← onDiskManager p (addTuple (.diskManager p) (.hashTable (.pageDirectory p)) args pidNull)
  | .removeTuple p rid => onDiskManager p (removeTuple (.diskManager p) rid)

/-- A call without latches. -/
def plainOp : LatchOp α → Prog Fault (Objects α) Unit
  | .insert ht key data => Prog.zoom (·.hashTable ht) (·.setHashTable ht) (Unlatched.hashInsert key data)
  | .remove ht key => do
    let _ ← Prog.zoom (·.hashTable ht) (·.setHashTable ht) (Unlatched.hashRemove key)
  | .unpin p frame => Prog.zoom (·.replacers p) (Objects.setReplacer p) (Unlatched.clockReplacerUnpin frame)
  | .pin p frame => Prog.zoom (·.replacers p) (Objects.setReplacer p) (Unlatched.clockReplacerPin frame)
  | .evict p => do let _ ← Prog.zoom (·.replacers p) (Objects.setReplacer p) SomeDB.evict
  | .newPage p => do let _ ← Prog.zoom (·.diskManagers p) (Objects.setDiskManager p) SomeDB.newHeapPage
  | .add p args pidNull => do
    let _ ← Prog.zoom (·.diskManagers p) (Objects.setDiskManager p) (Unlatched.addTuple args pidNull)
  | .removeTuple p rid => Prog.zoom (·.diskManagers p) (Objects.setDiskManager p) (SomeDB.removeTuple rid)

/-- The replacer that is asked for a victim has frames in its list. -/
def ListsFrames (s : Objects α) : LatchOp α → Prop
  | .evict p => (s.replacers p).frames.size ≠ 0
  | _ => True

theorem onHashTable_follows {W : Latch → Prop} {h : Latch → Bool} {h' : β → Latch → Bool} {ht : TablePtr}
    {m : LatchM Fault Latch (HashTable (ht.Data α)) β} {m' : HashM (ht.Data α) β} {s : Objects α}
    (hm : Follows W m m' h h' (s.hashTable ht)) :
    Follows W (onHashTable ht m) (Prog.zoom (·.hashTable ht) (·.setHashTable ht) m') h h' s := .on hm

theorem onReplacer_follows {W : Latch → Prop} {h : Latch → Bool} {h' : β → Latch → Bool} {p : Nat}
    {m : LatchM Fault Latch ClockReplacer β} {m' : ClockM β} {s : Objects α}
    (hm : Follows W m m' h h' (s.replacers p)) :
    Follows W (onReplacer p m) (Prog.zoom (·.replacers p) (Objects.setReplacer p) m') h h' s := .on hm

theorem onDiskManager_follows {W : Latch → Prop} {h : Latch → Bool} {h' : β → Latch → Bool} {p : Nat}
    {m : LatchM Fault Latch DiskManager β} {m' : HeapM β} {s : Objects α}
    (hm : Follows W m m' h h' (s.diskManagers p)) :
    Follows W (onDiskManager p m) (Prog.zoom (·.diskManagers p) (Objects.setDiskManager p) m') h h' s := .on hm

theorem latchOp_follows {s : Objects α} {op : LatchOp α} (hop : ListsFrames s op) (h : Latch → Bool) :
    Follows (fun l => h l = true) (latchOp op) (plainOp op) h (fun _ => h) s := by
  have hW : ∀ l, h l = true → h l = true := fun _ hl => hl
  have hframe : ∀ p, Latch.hashTable (.frameTable p) ≠ .clockReplacer p := nofun
  have hpage : ∀ p, Latch.hashTable (.pageDirectory p) ≠ .diskManager p := nofun
  cases op with
  | insert ht key data => exact onHashTable_follows (hashInsert_follows (hW _) key data _)
  | remove ht key => exact .bind (onHashTable_follows (hashRemove_follows (hW _) key _)) fun _ _ _ => .pure rfl
  | unpin p frame => exact onReplacer_follows (clockReplacerUnpin_follows hW (hframe p) frame _)
  | pin p frame => exact onReplacer_follows (clockReplacerPin_follows hW (hframe p) frame _)
  | evict p => exact .bind (onReplacer_follows (evict_follows hW (hframe p) hop)) fun _ _ _ => .pure rfl
  | newPage p => exact .bind (onDiskManager_follows (newHeapPage_follows (hW _) _)) fun _ _ _ => .pure rfl
  | add p args pidNull =>
    exact .bind (onDiskManager_follows (addTuple_follows (hW _) (hW _) (hpage p) args pidNull _)) fun _ _ _ => .pure rfl
  | removeTuple p rid => exact onDiskManager_follows (removeTuple_follows (hW _) rid _)

/-- `evict` on a replacer without frames. -/
theorem latchOp_evict_empty {s : Objects α} {h : Latch → Bool} {p : Nat} (hl : h (.clockReplacer p) = false)
    (hsize : (s.replacers p).frames.size = 0) :
    latchOp (.evict p) ⟨s, h⟩ =
      (.ok (), ⟨s.setReplacer p (s.replacers p), Function.update h (.clockReplacer p) true⟩) := by
  have hevict : onReplacer p (evict (.clockReplacer p) (.hashTable (.frameTable p))) ⟨s, h⟩ =
      (.ok none, ⟨s.setReplacer p (s.replacers p), Function.update h (.clockReplacer p) true⟩) :=
    on_eq (evict_empty hl hsize)
  exact Prog.bind_ok hevict

/-- A call on an object with a free latch returns with the latches as they were exactly if it is not an `evict` on a
replacer without frames. -/
theorem latchOp_returns_iff (s : LatchState Latch (Objects α)) {op : LatchOp α} (hfree : s.held op.latch = false) :
    (∀ t, latchOp op s = (.ok (), t) → t.held = s.held) ↔ ListsFrames s.state op := by
  constructor
  · intro hret
    cases op with
    | evict p =>
      intro hsize
      have hheld : Function.update s.held (.clockReplacer p) true = s.held :=
        hret _ (latchOp_evict_empty hfree hsize)
      have htrue := congrFun hheld (.clockReplacer p)
      rw [Function.update_self] at htrue
      exact Bool.false_ne_true (hfree.symm.trans htrue.symm)
    | _ => trivial
  · intro hop t hrun
    exact (latchOp_follows hop s.held).held hrun

/-- A run without such an `evict` does what the run without latches does, if it finds no latch held. -/
theorem latched_run_follows (s : LatchState Latch (Objects α)) {ops : List (LatchOp α)}
    (hops : Prog.Meets latchOp (fun x op => ListsFrames x.state op) ops s) :
    Follows (fun l => s.held l = true) (Prog.runAll latchOp ops) (Prog.runAll plainOp ops) s.held
      (fun _ => s.held) s.state :=
  .runAll (fun _ _ hop => latchOp_follows hop s.held) hops

/-- From free latches such a run returns what the run without latches returns, and the latches are free again. -/
theorem latched_run_ok {s : Objects α} {ops : List (LatchOp α)}
    (hops : Prog.Meets latchOp (fun x op => ListsFrames x.state op) ops ⟨s, fun _ => false⟩) {rs : List Unit}
    {t : Objects α} (hrun : Prog.runAll plainOp ops s = (.ok rs, t)) :
    Prog.runAll latchOp ops ⟨s, fun _ => false⟩ = (.ok rs, ⟨t, fun _ => false⟩) :=
  (latched_run_follows ⟨s, fun _ => false⟩ hops).ok_of_free (fun _ => Bool.false_ne_true) hrun

/-- Every latch is released, by each call that is not an `evict` on a replacer without frames and by no other one.
A run of such calls never waits for a latch. -/
theorem latch_released_iff (s : LatchState Latch (Objects α)) :
    (∀ op : LatchOp α, s.held op.latch = false →
      ((∀ t, latchOp op s = (.ok (), t) → t.held = s.held) ↔ ListsFrames s.state op)) ∧
    ((∀ l, s.held l = false) → ∀ ops : List (LatchOp α),
      Prog.Meets latchOp (fun x op => ListsFrames x.state op) ops s →
      ∀ r t, Prog.runAll latchOp ops s = (r, t) →
        (∀ l, r ≠ .error (.blocks l)) ∧ ∀ rs, r = .ok rs → ∀ l, t.held l = false) := by
  refine ⟨fun op hfree => latchOp_returns_iff s hfree, fun hfree ops hops r t hrun => ?_⟩
  have hfollows := latched_run_follows s hops
  refine ⟨fun l hr => ?_, fun rs hr l => ?_⟩
  · rw [hr] at hrun
    exact hfollows.not_blocks (by simp [hfree l]) t hrun
  · rw [hr] at hrun
    rw [hfollows.held hrun]
    exact hfree l

end

/-- No table has a key, no replacer a frame and no disk manager a page. -/
def newObjects : Objects Nat where
  tables _ := initHash Nat 10
  replacers _ := clockReplacerInit 10
  diskManagers _ := ⟨fun _ => none, initHash FreeSpace 500, fun n => ⟨65536 + n, by omega⟩, fun _ => Block.zero⟩

/-- A replacer whose list has frame 1, with its bit cleared. -/
def oneFrame : Objects Nat :=
  let bucket : Bucket FrameInfo := ⟨some ⟨['1'], ⟨false, 0⟩, false⟩, []⟩
  newObjects.setReplacer 0 { clockReplacerInit 10 with
    frames := ⟨10, 1, [⟨0, ['1']⟩], 1⟩
    frameTable := ⟨(initHash FrameInfo 10).arr.set 1 bucket, 10⟩ }

theorem latch_released_iff_oneFrame : ∃ t, latchOp (.evict 0) ⟨oneFrame, fun _ => false⟩ = (.ok (), t) ∧
    (t.held = fun _ => false) ∧ ∀ r u, Prog.runAll latchOp [.evict 0] ⟨oneFrame, fun _ => false⟩ = (r, u) →
      ∀ l, r ≠ .error (.blocks l) := by
  have h := latch_released_iff (α := Nat) ⟨oneFrame, fun _ => false⟩
  have hframes : ListsFrames oneFrame (.evict 0) := by simp [ListsFrames, oneFrame, Objects.setReplacer]
  have hrun : (latchOp (.evict 0) ⟨oneFrame, fun _ => false⟩).1.isOk = true := by decide
  obtain ⟨_, hok⟩ := Prog.eq_ok_of_isOk hrun
  refine ⟨_, hok, (h.1 (.evict 0) rfl).mpr hframes _ hok, fun r u hrun => ?_⟩
  refine (h.2 (fun _ => rfl) [.evict 0] ⟨hframes, ?_⟩ r u hrun).1
  split <;> trivial

/-- The first `evict` of a new replacer returns with its latch held. A call that another thread then makes on the
replacer waits for it. -/
theorem latch_released_fails : ∃ t,
    latchOp (.evict 0) ⟨newObjects, fun _ => false⟩ = (.ok (), t) ∧ t.held (.clockReplacer 0) = true ∧
    ∀ op : LatchOp Nat, op.latch = .clockReplacer 0 → (latchOp op t).1 = .error (.blocks (.clockReplacer 0)) := by
  have hfirst : latchOp (.evict 0) ⟨newObjects, fun _ => false⟩ = (.ok (), _) := latchOp_evict_empty rfl rfl
  refine ⟨_, hfirst, rfl, fun op hop => ?_⟩
  cases op <;> cases hop <;> rfl

end Latched

end SomeDB
