import SomeDB.Utils.Shared
import SomeDB.Utils.Serialize

/-!
# The disk manager (`disk_manager.c`)

A file is a map from page ids to pages; a page that was never written lies past the end of the file.
`newBtreeIndexPage` and `createBtreeIndex` work on the metadata page of an index file directly:

| offset | size | field |
|--------|------|-------|
| 0      | 4    | magic number `BTREE_INDEX` |
| 4      | 2    | number of nodes |
| 6      | 1    | largest number of keys in a node |
| 7      | 4    | page id of the root |
-/

namespace SomeDB

open Lib

/-- The pages of a database file. -/
def Disk : Type := PageId → Option Page

namespace Disk

/-- `d` with `data` as page `pid`. -/
def write (d : Disk) (pid : PageId) (data : Page) : Disk := fun q => if q = pid then some data else d q

@[simp] theorem write_same (d : Disk) (pid : PageId) (data : Page) : d.write pid data pid = some data := by
  simp [write]

theorem write_ne (d : Disk) {pid q : PageId} (data : Page) (h : q ≠ pid) : d.write pid data q = d q := by
  simp [write, h]

end Disk

/-- `read_page`. -/
def readPage (pid : PageId) : Prog Fault Disk Page := fun d =>
  match d pid with
  | some data => (.ok data, d)
  | none => (.error .exit, d)

theorem readPage_eq_ok {pid : PageId} {data : Page} {d d' : Disk} (h : readPage pid d = (.ok data, d')) :
    d pid = some data ∧ d = d' := by
  rw [readPage] at h
  split at h
  · next hd =>
    cases h
    exact ⟨hd, rfl⟩
  · cases h

/-- `write_page`. -/
def writePage (pid : PageId) (data : Page) : Prog Fault Disk Unit := fun d => (.ok (), d.write pid data)

/-- A failed `assert` ends the program. -/
def assert {σ : Type} (c : Prop) [Decidable c] : Prog Fault σ Unit :=
  if c then pure () else Prog.fault .assertion

theorem assert_bind {σ β : Type} {c : Prop} [Decidable c] (h : c) (f : Unit → Prog Fault σ β) (s : σ) :
    ((assert c : Prog Fault σ Unit) >>= f) s = f () s := by
  rw [assert, if_pos h]
  rfl

theorem assert_of_ok {σ : Type} {c : Prop} [Decidable c] {s s' : σ} {u : Unit}
    (h : (assert c : Prog Fault σ Unit) s = (.ok u, s')) : c ∧ s = s' := by
  unfold assert at h
  split at h
  · next hc => cases h; exact ⟨hc, rfl⟩
  · cases h

/-- The magic number of the index metadata page. -/
def BTREE_INDEX : UInt32 := 0x951F6C01

/-- `BTREE_METADATA_PAGE_ID`. -/
abbrev BTREE_METADATA_PAGE_ID : PageId := 0

/-- The zeroed page image that `new_btree_index_page` writes. -/
def freshNodePage (isLeaf : Bool) : Page := Block.zero.blit 13 [if isLeaf then 1 else 0]

/-- `new_btree_index_page`. The node counter is a `u16`. -/
def newBtreeIndexPage (isLeaf : Bool) : Prog Fault Disk PageId := do
  let metadataPage ← readPage 0
  assert (decodeUint32 (metadataPage.slice 0 4) = BTREE_INDEX)
  let currNodeNum := decodeUint16 (metadataPage.slice 4 2)
  let newNodeNum := currNodeNum + 1
  writePage 0 (metadataPage.blit 4 (encodeUint16 newNodeNum))
  writePage newNodeNum.toUInt32 (freshNodePage isLeaf)
  pure newNodeNum.toUInt32

/-- The file that `create_btree_index` leaves. -/
def createBtreeIndex (maxKeys : UInt8) : Disk :=
  let indexBuf := Block.zero.blit 0 (encodeUint32 BTREE_INDEX)
  let indexBuf := indexBuf.blit 4 (encodeUint16 0)
  let indexBuf := indexBuf.blit 6 [maxKeys]
  fun pid => if pid = 0 then some indexBuf else none

end SomeDB
