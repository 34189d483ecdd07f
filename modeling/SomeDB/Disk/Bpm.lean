import SomeDB.Disk.ClockReplacer
import SomeDB.Disk.DiskManager

/-!
# The buffer pool (`bpm.c`)

A frame is known by its number, where the source has a pointer to it; the numbers stand for `frame_id_t`
in pools of up to `2 ^ 31` frames, as `frame_to_str` prints them as `int`. The disk manager is the one of
an index file, so `allocate_new_page` is the call with `BTREE_INDEX_PAGE`. The latch is not modelled: one
call runs after the other.

`PageTableOf bpm rs`: the page table has the pages and frames `rs`. The lemmas about single calls are
stated for calls that return.
-/

namespace SomeDB

open Lib

/-- `BpmPage`. -/
structure BpmPage where
  data : Page
  id : PageId
  pinCount : Int
  isDirty : Bool

/-- `BufferPoolManager`. -/
structure BufferPoolManager where
  poolSize : Nat
  pages : List BpmPage
  pageTable : HashTable FrameId
  freeList : List Bool
  replacer : ClockReplacer
  diskManager : Disk

abbrev BpmM (α : Type) := Prog Fault BufferPoolManager α

/-- `new_bpm`. -/
def newBpm (poolSize : Nat) (diskManager : Disk) : BufferPoolManager where
  poolSize := poolSize
  pages := List.replicate poolSize ⟨Block.zero, 0, 0, false⟩
  pageTable := initHash FrameId (UInt32.ofNat poolSize)
  freeList := List.replicate poolSize true
  replacer := clockReplacerInit poolSize
  diskManager := diskManager

def onPageTable {α : Type} (p : HashM FrameId α) : BpmM α :=
  Prog.zoom (·.pageTable) (fun bpm ht => { bpm with pageTable := ht }) p

def onReplacer {α : Type} (p : ClockM α) : BpmM α :=
  Prog.zoom (·.replacer) (fun bpm r => { bpm with replacer := r }) p

def onDiskManager {α : Type} (p : Prog Fault Disk α) : BpmM α :=
  Prog.zoom (·.diskManager) (fun bpm d => { bpm with diskManager := d }) p

/-- `bpm->pages[fid]`. -/
def pageAt (fid : FrameId) : BpmM BpmPage := do
  match (← Prog.get).pages[fid]? with
  | some page => pure page
  | none => Prog.fault .outOfBounds

/-- `bpm->pages[fid] = page`. -/
def setPageAt (fid : FrameId) (page : BpmPage) : BpmM Unit := do
  let _ ← pageAt fid
  Prog.modify fun bpm => { bpm with pages := bpm.pages.set fid page }

/-- `bpm->pages[fid].pin_count++`. -/
def incPinCount (fid : FrameId) : BpmM Unit := do
  let page ← pageAt fid
  if page.pinCount = 2147483647 then Prog.fault .overflow
  else setPageAt fid { page with pinCount := page.pinCount + 1 }

/-- `hash_find` in the page table of the number of a page: the frame. -/
def findFrame (pid : PageId) : BpmM (Option FrameId) := do
  match ← onPageTable (hashFind true (sprintfD pid)) with
  | none => pure none
  | some found => pure (some (← Prog.lift (deref (some found))))

/-- `add_to_pagetable`. The buffer for the key has five bytes. -/
def addToPagetable (key : PageId) (val : FrameId) : BpmM Unit :=
  if 5 ≤ (sprintfU key.toNat).length then Prog.fault .outOfBounds
  else onPageTable (hashInsert true (sprintfU key.toNat) val)

/-- `flush_page`. The frame number is read from the element after it was removed, which frees it in a
linked cell. -/
def flushPage (pid : PageId) : BpmM Bool := do
  match ← findFrame pid with
  | none => pure false
  | some fid => do
    let page ← pageAt fid
    onDiskManager (writePage pid page.data)
    let removed ← onPageTable (hashRemove true (sprintfD pid))
    if removed = .linked then Prog.fault .freed
    else do
      Prog.modify fun bpm => { bpm with freeList := bpm.freeList.set fid true }
      onReplacer (clockReplacerUnpin fid)
      pure true

/-- The frame for a new page in `new_bpm_page`: a free one, or else one that `evict` gives. What is flushed
then is the page with the number of the frame. -/
def takeFrame : BpmM (Option FrameId) := do
  match (← Prog.get).freeList.findIdx? id with
  | some fid => do
    Prog.modify fun bpm => { bpm with freeList := bpm.freeList.set fid false }
    pure (some fid)
  | none =>
    match ← onReplacer evict with
    | none => pure none
    | some fid => do
      let page ← pageAt fid
      if page.isDirty then do
        let _ ← flushPage (UInt32.ofNat fid)
        pure (some fid)
      else pure (some fid)

/-- `new_bpm_page`. -/
def newBpmPage (pid : PageId) : BpmM (Option FrameId) := do
  match ← findFrame pid with
  | some fid => pure (some fid)
  | none =>
    match ← takeFrame with
    | none => pure none
    | some fid => do
      setPageAt fid ⟨Block.zero, pid, 1, false⟩
      addToPagetable pid fid
      onReplacer (clockReplacerPin fid)
      pure (some fid)

/-- The loop of `allocate_new_page`. A turn without a frame has cleared all reference bits, so a later
one finds a frame unless there is none to find. -/
def newBpmPageLoop (pid : PageId) : Nat → BpmM FrameId
  | 0 => Prog.fault .diverges
  | n + 1 => do
    match ← newBpmPage pid with
    | some fid => pure fid
    | none => newBpmPageLoop pid n

/-- `allocate_new_page`. -/
def allocateNewPage : BpmM FrameId := do
  let pid ← onDiskManager (newBtreeIndexPage false)
  newBpmPageLoop pid 3

/-- `unpin_page`. -/
def unpinPage (pid : PageId) (isDirty : Bool) : BpmM Bool := do
  match ← findFrame pid with
  | none => pure false
  | some fid => do
    let page ← pageAt fid
    if page.pinCount = 0 then pure false
    else do
      setPageAt fid { page with isDirty, pinCount := page.pinCount - 1 }
      if page.pinCount - 1 = 0 then do
        onReplacer (clockReplacerUnpin fid)
        pure true
      else pure true

/-- `write_to_frame`. -/
def writeToFrame (fid : FrameId) (data : Page) : BpmM Unit := do
  let page ← pageAt fid
  setPageAt fid { page with data, isDirty := true }

/-- `fetch_bpm_page`. -/
def fetchBpmPage (pid : PageId) : BpmM FrameId := do
  match ← findFrame pid with
  | some fid => do
    incPinCount fid
    pure fid
  | none =>
    let newp ← newBpmPage pid
    match ← findFrame pid with
    | none => Prog.fault .nullPointer
    | some fid => do
      incPinCount fid
      let data ← onDiskManager (readPage pid)
      match newp with
      | none => Prog.fault .nullPointer
      | some newFid => do
        let page ← pageAt newFid
        setPageAt newFid { page with data }
        pure newFid

/-- A call on the pool. -/
inductive BpmOp where
  | allocate
  | fetch (pid : PageId)
  | unpin (pid : PageId) (isDirty : Bool)
  | write (fid : FrameId) (data : Page)
  | flush (pid : PageId)

/-- The frame that a call returns. -/
def bpmOp : BpmOp → BpmM (Option FrameId)
  | .allocate => do
    let fid ← allocateNewPage
    pure (some fid)
  | .fetch pid => do
    let fid ← fetchBpmPage pid
    pure (some fid)
  | .unpin pid isDirty => do
    let _ ← unpinPage pid isDirty
    pure none
  | .write fid data => do
    writeToFrame fid data
    pure none
  | .flush pid => do
    let _ ← flushPage pid
    pure none

/-! ## What calls that return have done -/

section Calls

variable {bpm bpm' : BufferPoolManager} {pid : PageId} {fid : FrameId}

/-- The frame that a page table has for a page. -/
def frameIn (ht : HashTable FrameId) (pid : PageId) : Option FrameId :=
  match (hashFind true (sprintfD pid) ht).1 with
  | .ok (some el) => if el.freed then none else some el.data
  | _ => none

/-- The frame of a page. -/
abbrev frameOf (bpm : BufferPoolManager) (pid : PageId) : Option FrameId := frameIn bpm.pageTable pid

theorem findFrame_eq_ok {o : Option FrameId} (h : findFrame pid bpm = (.ok o, bpm')) :
    frameOf bpm pid = o ∧ bpm' = bpm := by
  rw [findFrame] at h
  obtain ⟨found, bpm₁, hfind, h₁⟩ := Prog.bind_eq_ok h
  obtain ⟨ht, hrun, rfl⟩ := Prog.zoom_eq_ok hfind
  have hstate := hashFind_state true (sprintfD pid) bpm.pageTable
  rw [hrun] at hstate
  simp only at hstate
  subst hstate
  cases found with
  | none => cases h₁; exact ⟨by rw [frameOf, frameIn, hrun], rfl⟩
  | some el =>
    obtain ⟨f, hf, h₂⟩ := Prog.lift_bind_eq_ok h₁
    cases h₂
    refine ⟨?_, rfl⟩
    rw [frameOf, frameIn, hrun]
    rw [deref] at hf
    split at hf
    · cases hf
    · next hfreed =>
      cases hf
      simp only [hfreed]
      rfl

theorem pageAt_eq_ok {page : BpmPage} (h : pageAt fid bpm = (.ok page, bpm')) :
    bpm.pages[fid]? = some page ∧ bpm' = bpm := by
  rw [pageAt, Prog.get_bind] at h
  cases hpage : bpm.pages[fid]? with
  | none => rw [hpage] at h; cases h
  | some p => rw [hpage] at h; cases h; exact ⟨rfl, rfl⟩

theorem setPageAt_eq_ok {page : BpmPage} {u : Unit} (h : setPageAt fid page bpm = (.ok u, bpm')) :
    fid < bpm.pages.length ∧ bpm' = { bpm with pages := bpm.pages.set fid page } := by
  rw [setPageAt] at h
  obtain ⟨old, bpm₁, hold, hset⟩ := Prog.bind_eq_ok h
  obtain ⟨hpage, rfl⟩ := pageAt_eq_ok hold
  cases hset
  exact ⟨(List.getElem?_eq_some_iff.mp hpage).1, rfl⟩

/-- The page in a frame with one pin more. -/
def BpmPage.pin (page : BpmPage) : BpmPage := { page with pinCount := page.pinCount + 1 }

theorem incPinCount_eq_ok {u : Unit} (h : incPinCount fid bpm = (.ok u, bpm')) :
    ∃ page, bpm.pages[fid]? = some page ∧ bpm' = { bpm with pages := bpm.pages.set fid page.pin } := by
  rw [incPinCount] at h
  obtain ⟨page, bpm₁, hat, hset⟩ := Prog.bind_eq_ok h
  obtain ⟨hpage, rfl⟩ := pageAt_eq_ok hat
  split at hset
  · cases hset
  · exact ⟨page, hpage, (setPageAt_eq_ok hset).2⟩

theorem addToPagetable_eq_ok {u : Unit} (h : addToPagetable pid fid bpm = (.ok u, bpm')) :
    (sprintfU pid.toNat).length < 5 ∧
      ∃ ht, hashInsert true (sprintfU pid.toNat) fid bpm.pageTable = (.ok (), ht) ∧
        bpm' = { bpm with pageTable := ht } := by
  rw [addToPagetable] at h
  split at h
  · cases h
  · next hlen =>
    obtain ⟨ht, hrun, rfl⟩ := Prog.zoom_eq_ok h
    exact ⟨Nat.lt_of_not_le hlen, ht, hrun, rfl⟩

/-- What `flush_page` has done when it returns. -/
inductive Flushed (pid : PageId) (bpm : BufferPoolManager) : Bool → BufferPoolManager → Prop
  | absent (hframe : frameOf bpm pid = none) : Flushed pid bpm false bpm
  | written {fid : FrameId} {page : BpmPage} {removed : Removed} {ht : HashTable FrameId} {r : ClockReplacer}
      (hframe : frameOf bpm pid = some fid) (hpage : bpm.pages[fid]? = some page)
      (htable : hashRemove true (sprintfD pid) bpm.pageTable = (.ok removed, ht))
      (hremoved : removed ≠ .linked)
      (hreplacer : clockReplacerUnpin fid bpm.replacer = (.ok (), r)) :
      Flushed pid bpm true { bpm with
        pageTable := ht
        freeList := bpm.freeList.set fid true
        replacer := r
        diskManager := bpm.diskManager.write pid page.data }

theorem flushPage_eq_ok {b : Bool} (h : flushPage pid bpm = (.ok b, bpm')) : Flushed pid bpm b bpm' := by
  rw [flushPage] at h
  obtain ⟨o, bpm₁, hfind, h₁⟩ := Prog.bind_eq_ok h
  obtain ⟨hframe, rfl⟩ := findFrame_eq_ok hfind
  cases o with
  | none => cases h₁; exact .absent hframe
  | some fid =>
    obtain ⟨page, bpm₂, hat, h₂⟩ := Prog.bind_eq_ok h₁
    obtain ⟨hpage, rfl⟩ := pageAt_eq_ok hat
    obtain ⟨_, bpm₃, hwrite, h₃⟩ := Prog.bind_eq_ok h₂
    obtain ⟨d, hd, rfl⟩ := Prog.zoom_eq_ok hwrite
    cases hd
    obtain ⟨removed, bpm₄, hremove, h₄⟩ := Prog.bind_eq_ok h₃
    obtain ⟨ht, htable, rfl⟩ := Prog.zoom_eq_ok hremove
    split at h₄
    · cases h₄
    · next hremoved =>
      rw [Prog.modify_bind] at h₄
      obtain ⟨_, bpm₅, hunpin, h₅⟩ := Prog.bind_eq_ok h₄
      obtain ⟨r, hr, rfl⟩ := Prog.zoom_eq_ok hunpin
      cases h₅
      exact .written hframe hpage htable hremoved hr

/-- What the choice of a frame has done when it returns. -/
inductive FrameTaken (bpm : BufferPoolManager) : Option FrameId → BufferPoolManager → Prop
  | free {fid : FrameId} (hfree : bpm.freeList.findIdx? id = some fid) :
      FrameTaken bpm (some fid) { bpm with freeList := bpm.freeList.set fid false }
  | noFrame {r : ClockReplacer} (hfree : bpm.freeList.findIdx? id = none)
      (hevict : evict bpm.replacer = (.ok none, r)) : FrameTaken bpm none { bpm with replacer := r }
  | clean {fid : FrameId} {page : BpmPage} {r : ClockReplacer} (hfree : bpm.freeList.findIdx? id = none)
      (hevict : evict bpm.replacer = (.ok (some fid), r)) (hpage : bpm.pages[fid]? = some page)
      (hdirty : page.isDirty = false) : FrameTaken bpm (some fid) { bpm with replacer := r }
  | dirty {fid : FrameId} {page : BpmPage} {r : ClockReplacer} {b : Bool} {bpm' : BufferPoolManager}
      (hfree : bpm.freeList.findIdx? id = none) (hevict : evict bpm.replacer = (.ok (some fid), r))
      (hpage : bpm.pages[fid]? = some page) (hdirty : page.isDirty = true)
      (hflush : Flushed (UInt32.ofNat fid) { bpm with replacer := r } b bpm') :
      FrameTaken bpm (some fid) bpm'

theorem free_of_findIdx {freeList : List Bool} {f : FrameId} (h : freeList.findIdx? id = some f) :
    freeList[f]? = some true := by
  obtain ⟨hf, htrue, -⟩ := List.findIdx?_eq_some_iff_getElem.mp h
  rw [List.getElem?_eq_getElem hf]
  exact congrArg some htrue

theorem takeFrame_eq_ok {o : Option FrameId} (h : takeFrame bpm = (.ok o, bpm')) : FrameTaken bpm o bpm' := by
  rw [takeFrame, Prog.get_bind] at h
  cases hfree : bpm.freeList.findIdx? id with
  | some fid =>
    rw [hfree] at h
    cases h
    exact .free hfree
  | none =>
    rw [hfree] at h
    obtain ⟨ev, bpm₁, hzoom, h₁⟩ := Prog.bind_eq_ok h
    obtain ⟨r, hevict, rfl⟩ := Prog.zoom_eq_ok hzoom
    cases ev with
    | none => cases h₁; exact .noFrame hfree hevict
    | some fid =>
      obtain ⟨page, bpm₂, hat, h₂⟩ := Prog.bind_eq_ok h₁
      obtain ⟨hpage, rfl⟩ := pageAt_eq_ok hat
      cases hdirty : page.isDirty with
      | false =>
        rw [hdirty] at h₂
        cases h₂
        exact .clean hfree hevict hpage hdirty
      | true =>
        rw [hdirty] at h₂
        obtain ⟨b, bpm₃, hflush, h₃⟩ := Prog.bind_eq_ok h₂
        cases h₃
        exact .dirty hfree hevict hpage hdirty (flushPage_eq_ok hflush)

/-- What `new_bpm_page` has done when it returns. -/
inductive Paged (pid : PageId) (bpm : BufferPoolManager) : Option FrameId → BufferPoolManager → Prop
  | found {fid : FrameId} (hframe : frameOf bpm pid = some fid) : Paged pid bpm (some fid) bpm
  | noFrame {bpm' : BufferPoolManager} (hframe : frameOf bpm pid = none) (htaken : FrameTaken bpm none bpm') :
      Paged pid bpm none bpm'
  | added {fid : FrameId} {bpm₁ : BufferPoolManager} {ht : HashTable FrameId} {r : ClockReplacer}
      (hframe : frameOf bpm pid = none) (htaken : FrameTaken bpm (some fid) bpm₁)
      (hfid : fid < bpm₁.pages.length) (hlen : (sprintfU pid.toNat).length < 5)
      (htable : hashInsert true (sprintfU pid.toNat) fid bpm₁.pageTable = (.ok (), ht))
      (hreplacer : clockReplacerPin fid bpm₁.replacer = (.ok (), r)) :
      Paged pid bpm (some fid) { bpm₁ with
        pages := bpm₁.pages.set fid ⟨Block.zero, pid, 1, false⟩
        pageTable := ht
        replacer := r }

theorem newBpmPage_eq_ok {o : Option FrameId} (h : newBpmPage pid bpm = (.ok o, bpm')) :
    Paged pid bpm o bpm' := by
  rw [newBpmPage] at h
  obtain ⟨found, bpm₁, hfind, h₁⟩ := Prog.bind_eq_ok h
  obtain ⟨hframe, rfl⟩ := findFrame_eq_ok hfind
  cases found with
  | some fid => cases h₁; exact .found hframe
  | none =>
    obtain ⟨taken, bpm₂, htake, h₂⟩ := Prog.bind_eq_ok h₁
    have htaken := takeFrame_eq_ok htake
    cases taken with
    | none => cases h₂; exact .noFrame hframe htaken
    | some fid =>
      obtain ⟨_, bpm₃, hset, h₃⟩ := Prog.bind_eq_ok h₂
      obtain ⟨hfid, rfl⟩ := setPageAt_eq_ok hset
      obtain ⟨_, bpm₄, hadd, h₄⟩ := Prog.bind_eq_ok h₃
      obtain ⟨hlen, ht, htable, rfl⟩ := addToPagetable_eq_ok hadd
      obtain ⟨_, bpm₅, hpin, h₅⟩ := Prog.bind_eq_ok h₄
      obtain ⟨r, hr, rfl⟩ := Prog.zoom_eq_ok hpin
      cases h₅
      exact .added hframe htaken hfid hlen htable hr

/-- The table finds a page that was just put into the pool. -/
theorem Paged.frameOf_eq {o : Option FrameId} (h : Paged pid bpm o bpm') : frameOf bpm' pid = o := by
  cases h with
  | found hframe => exact hframe
  | noFrame hframe htaken =>
    cases htaken with
    | noFrame hfree hevict => exact hframe
  | added hframe htaken hfid hlen htable hreplacer =>
    have hlt := lt_of_length_sprintfU hlen
    have hfound := found_hashInsert htable
    rw [SomeDB.found] at hfound
    rw [frameOf, frameIn, sprintfD_of_lt (by omega), hfound]
    rfl

/-- What the loop of `allocate_new_page` has done when it returns after at most `n` turns. -/
inductive PagedWithin (pid : PageId) : Nat → BufferPoolManager → FrameId → BufferPoolManager → Prop
  | done {n : Nat} {bpm bpm' : BufferPoolManager} {fid : FrameId} (hpaged : Paged pid bpm (some fid) bpm') :
      PagedWithin pid (n + 1) bpm fid bpm'
  | again {n : Nat} {bpm bpm₁ bpm' : BufferPoolManager} {fid : FrameId} (hpaged : Paged pid bpm none bpm₁)
      (hrest : PagedWithin pid n bpm₁ fid bpm') : PagedWithin pid (n + 1) bpm fid bpm'

theorem newBpmPageLoop_eq_ok {n : Nat} (h : newBpmPageLoop pid n bpm = (.ok fid, bpm')) :
    PagedWithin pid n bpm fid bpm' := by
  induction n generalizing bpm with
  | zero => cases h
  | succ n ih =>
    rw [newBpmPageLoop] at h
    obtain ⟨o, bpm₁, hpage, h₁⟩ := Prog.bind_eq_ok h
    have hpaged := newBpmPage_eq_ok hpage
    cases o with
    | none => exact .again hpaged (ih h₁)
    | some fid => cases h₁; exact .done hpaged

theorem allocateNewPage_eq_ok (h : allocateNewPage bpm = (.ok fid, bpm')) :
    ∃ pid d, newBtreeIndexPage false bpm.diskManager = (.ok pid, d) ∧
      PagedWithin pid 3 { bpm with diskManager := d } fid bpm' := by
  rw [allocateNewPage] at h
  obtain ⟨pid, bpm₁, hnew, h₁⟩ := Prog.bind_eq_ok h
  obtain ⟨d, hd, rfl⟩ := Prog.zoom_eq_ok hnew
  exact ⟨pid, d, hd, newBpmPageLoop_eq_ok h₁⟩

/-- What `unpin_page` has done when it returns. -/
inductive Unpinned (pid : PageId) (isDirty : Bool) (bpm : BufferPoolManager) :
    Bool → BufferPoolManager → Prop
  | absent (hframe : frameOf bpm pid = none) : Unpinned pid isDirty bpm false bpm
  | zero {fid : FrameId} {page : BpmPage} (hframe : frameOf bpm pid = some fid)
      (hpage : bpm.pages[fid]? = some page) (hpin : page.pinCount = 0) : Unpinned pid isDirty bpm false bpm
  | last {fid : FrameId} {page : BpmPage} {r : ClockReplacer} (hframe : frameOf bpm pid = some fid)
      (hpage : bpm.pages[fid]? = some page) (hpin : page.pinCount = 1)
      (hreplacer : clockReplacerUnpin fid bpm.replacer = (.ok (), r)) :
      Unpinned pid isDirty bpm true { bpm with
        pages := bpm.pages.set fid { page with isDirty, pinCount := 0 }
        replacer := r }
  | more {fid : FrameId} {page : BpmPage} (hframe : frameOf bpm pid = some fid)
      (hpage : bpm.pages[fid]? = some page) (hzero : page.pinCount ≠ 0) (hone : page.pinCount ≠ 1) :
      Unpinned pid isDirty bpm true { bpm with
        pages := bpm.pages.set fid { page with isDirty, pinCount := page.pinCount - 1 } }

theorem unpinPage_eq_ok {isDirty b : Bool} (h : unpinPage pid isDirty bpm = (.ok b, bpm')) :
    Unpinned pid isDirty bpm b bpm' := by
  rw [unpinPage] at h
  obtain ⟨o, bpm₁, hfind, h₁⟩ := Prog.bind_eq_ok h
  obtain ⟨hframe, rfl⟩ := findFrame_eq_ok hfind
  cases o with
  | none => cases h₁; exact .absent hframe
  | some fid =>
    obtain ⟨page, bpm₂, hat, h₂⟩ := Prog.bind_eq_ok h₁
    obtain ⟨hpage, rfl⟩ := pageAt_eq_ok hat
    split at h₂
    · next hpin => cases h₂; exact .zero hframe hpage hpin
    · next hzero =>
      obtain ⟨_, bpm₃, hset, h₃⟩ := Prog.bind_eq_ok h₂
      obtain ⟨-, rfl⟩ := setPageAt_eq_ok hset
      split at h₃
      · next hlast =>
        obtain ⟨_, bpm₄, hunpin, h₄⟩ := Prog.bind_eq_ok h₃
        obtain ⟨r, hr, rfl⟩ := Prog.zoom_eq_ok hunpin
        cases h₄
        rw [hlast]
        exact .last hframe hpage (by omega) hr
      · next hmore => cases h₃; exact .more hframe hpage hzero (by omega)

theorem writeToFrame_eq_ok {data : Page} {u : Unit} (h : writeToFrame fid data bpm = (.ok u, bpm')) :
    ∃ page, bpm.pages[fid]? = some page ∧
      bpm' = { bpm with pages := bpm.pages.set fid { page with data, isDirty := true } } := by
  rw [writeToFrame] at h
  obtain ⟨page, bpm₁, hat, h₁⟩ := Prog.bind_eq_ok h
  obtain ⟨hpage, rfl⟩ := pageAt_eq_ok hat
  exact ⟨page, hpage, (setPageAt_eq_ok h₁).2⟩

theorem found_of_findFrame (h : findFrame pid bpm = (.ok none, bpm')) :
    found bpm.pageTable (sprintfD pid) = .ok none := by
  rw [findFrame] at h
  obtain ⟨o, bpm₁, hfind, h₁⟩ := Prog.bind_eq_ok h
  obtain ⟨ht, hrun, rfl⟩ := Prog.zoom_eq_ok hfind
  cases o with
  | none => rw [found, hrun]
  | some el =>
    obtain ⟨f, -, h₂⟩ := Prog.lift_bind_eq_ok h₁
    cases h₂

/-- What `fetch_bpm_page` has done when it returns. -/
inductive Fetched (pid : PageId) (bpm : BufferPoolManager) : FrameId → BufferPoolManager → Prop
  | hit {fid : FrameId} {page : BpmPage} (hframe : frameOf bpm pid = some fid)
      (hpage : bpm.pages[fid]? = some page) :
      Fetched pid bpm fid { bpm with pages := bpm.pages.set fid page.pin }
  | miss {fid : FrameId} {page : BpmPage} {data : Page} {bpm₁ : BufferPoolManager}
      (hframe : frameOf bpm pid = none) (habsent : found bpm.pageTable (sprintfD pid) = .ok none)
      (hpaged : Paged pid bpm (some fid) bpm₁) (hpage : bpm₁.pages[fid]? = some page)
      (hdata : bpm₁.diskManager pid = some data) :
      Fetched pid bpm fid { bpm₁ with pages := bpm₁.pages.set fid { page.pin with data } }

theorem fetchBpmPage_eq_ok (h : fetchBpmPage pid bpm = (.ok fid, bpm')) : Fetched pid bpm fid bpm' := by
  rw [fetchBpmPage] at h
  obtain ⟨o, bpm₁, hfind, h₁⟩ := Prog.bind_eq_ok h
  obtain ⟨hframe, rfl⟩ := findFrame_eq_ok hfind
  cases o with
  | some f =>
    obtain ⟨_, bpm₂, hinc, h₂⟩ := Prog.bind_eq_ok h₁
    obtain ⟨page, hpage, rfl⟩ := incPinCount_eq_ok hinc
    cases h₂
    exact .hit hframe hpage
  | none =>
    obtain ⟨newp, bpm₂, hnew, h₂⟩ := Prog.bind_eq_ok h₁
    have hpaged := newBpmPage_eq_ok hnew
    obtain ⟨o, bpm₃, hfind', h₃⟩ := Prog.bind_eq_ok h₂
    obtain ⟨hframe', rfl⟩ := findFrame_eq_ok hfind'
    rw [hpaged.frameOf_eq] at hframe'
    subst hframe'
    cases newp with
    | none => cases h₃
    | some f =>
      obtain ⟨_, bpm₄, hinc, h₄⟩ := Prog.bind_eq_ok h₃
      obtain ⟨page, hpage, rfl⟩ := incPinCount_eq_ok hinc
      obtain ⟨data, bpm₅, hread, h₅⟩ := Prog.bind_eq_ok h₄
      obtain ⟨d, hd, rfl⟩ := Prog.zoom_eq_ok hread
      rw [readPage] at hd
      split at hd
      · next found hfound =>
        cases hd
        obtain ⟨page', bpm₆, hat, h₆⟩ := Prog.bind_eq_ok h₅
        obtain ⟨hpage', rfl⟩ := pageAt_eq_ok hat
        obtain ⟨_, bpm₇, hset, h₇⟩ := Prog.bind_eq_ok h₆
        obtain ⟨-, rfl⟩ := setPageAt_eq_ok hset
        cases h₇
        have hlt := (List.getElem?_eq_some_iff.mp hpage).1
        simp only [List.getElem?_set_self hlt, Option.some.injEq] at hpage'
        subst hpage'
        have hmiss := Fetched.miss hframe (found_of_findFrame hfind) hpaged hpage hfound
        simpa only [List.set_set] using hmiss
      · cases hd

end Calls

end SomeDB
