import SomeDB.Index.PooledTree
import SomeDB.Index.Reopen

/-!
# Processes that use an index one after the other

A process makes a buffer pool, opens the index with `deserialize`, and inserts and removes. When it ends, its pool and
its `BTree` object are lost, and the next process opens the file again (`Session`). A run of such processes is the same
as one in which each of them works on the plain file (`sessions_onFile`): no process loses a page that an earlier one
wrote, and no pool shows a process a page that is not the one in the file.
-/

namespace SomeDB

open Lib

/-- A process: the size of its buffer pool, what its memory holds at first, and its calls. -/
structure Session where
  poolSize : Nat
  pos : 0 < poolSize
  small : poolSize ≤ 65535
  junk : BTree Unit
  ops : List IndexOp

namespace Session

section

variable {σ : Type}

/-- The object before `deserialize`. -/
def start (s : Session) (store : σ) : BTree σ := { s.junk.onStore fun _ => store with serialized := [] }

/-- The process opens the index and makes its calls. -/
def body [PageStore σ] (s : Session) : TreeM σ (List (Option PageId)) := do
  BTree.deserialize
  Prog.runAll IndexOp.call s.ops

/-- The process on a store that it makes from the file. Its end leaves the file of the store. -/
def on [PageStore σ] (make : Disk → σ) (file : σ → Disk) (s : Session) : Prog Fault Disk (List (Option PageId)) :=
  Prog.zoom (fun d => s.start (make d)) (fun _ t => file t.bpm) s.body

end

/-- The process with its buffer pool. -/
def onPool (s : Session) : Prog Fault Disk (List (Option PageId)) := s.on (newBpm s.poolSize) (·.diskManager)

/-- The process on the plain file. -/
def onFile (s : Session) : Prog Fault Disk (List (Option PageId)) := s.on id id

/-- The process on the checked file. -/
def checked (s : Session) : Prog Fault Disk (List (Option PageId)) := s.on (CheckedFile.mk (n := s.poolSize)) (·.disk)

end Session

/-- The object with the fields that are on the metadata page. -/
def BTree.loaded {σ : Type} (t : BTree σ) (metadata : Page) : BTree σ :=
  { t with magicNum := decodeUint32 (metadata.slice 0 4), nodeCount := decodeUint16 (metadata.slice 4 2),
           rootPid := decodeUint32 (metadata.slice 7 4), maxSize := metadata.byte 6 }

theorem deserialize_of_read {σ : Type} [PageStore σ] {t : BTree σ} {data : Page}
    (hread : (PageStore.onDisk (readPage BTREE_METADATA_PAGE_ID) : Prog Fault σ Page) t.bpm = (.ok data, t.bpm))
    (hmagic : decodeUint32 (data.slice 0 4) = BTREE_INDEX) : BTree.deserialize t = (.ok (), t.loaded data) := by
  have honBpm : BTree.onBpm (PageStore.onDisk (readPage BTREE_METADATA_PAGE_ID)) t = (.ok data, t) :=
    Prog.zoom_ok hread
  rw [BTree.deserialize, Prog.bind_ok honBpm, Prog.modify_bind, assert_bind hmagic]
  rfl

theorem checked_deserialize_eq_ok {n : Nat} {t t' : BTree (CheckedFile n)} {u : Unit}
    (h : BTree.deserialize t = (.ok u, t')) : ∃ data, t.bpm.disk 0 = some data ∧
      decodeUint32 (data.slice 0 4) = BTREE_INDEX ∧ t.bpm.disk (UInt32.ofNat n) = none ∧ t' = t.loaded data := by
  rw [BTree.deserialize] at h
  obtain ⟨data, t₁, hread, h₁⟩ := Prog.bind_eq_ok h
  obtain ⟨file, honDisk, rfl⟩ := Prog.zoom_eq_ok hread
  obtain ⟨hpage, hroom⟩ := checkedOnDisk_eq_ok honDisk
  obtain ⟨hdata, hfile⟩ := readPage_eq_ok hpage
  obtain rfl : file = t.bpm := congrArg CheckedFile.mk hfile.symm
  rw [Prog.modify_bind] at h₁
  obtain ⟨_, t₂, hassert, h₂⟩ := Prog.bind_eq_ok h₁
  obtain ⟨hmagic, rfl⟩ := assert_of_ok hassert
  cases h₂
  exact ⟨data, hdata, hmagic, hroom, rfl⟩

/-- The pages of an index file are those up to the counter on its metadata page. -/
def IndexFile (d : Disk) : Prop := ∀ data, d 0 = some data → decodeUint32 (data.slice 0 4) = BTREE_INDEX →
  ∀ p, d p ≠ none ↔ p.toNat ≤ (decodeUint16 (data.slice 4 2)).toNat

theorem indexFile_create (m : UInt8) : IndexFile (createBtreeIndex m) := by
  intro data hdata _ p
  obtain ⟨data', hdata', hmeta⟩ := Shows.metaPage_createBtreeIndex m
  cases hdata.symm.trans hdata'
  rw [hmeta.count, createBtreeIndex]
  by_cases hp : p = 0
  · subst hp
    simp
  · have hne : p.toNat ≠ 0 := fun h0 => hp (UInt32.toNat_inj.mp h0)
    simp [hp, hne]

theorem Pooled.indexFile {n : Nat} {t : PoolTree} (h : Pooled n 0 t) : IndexFile t.bpm.diskManager := by
  intro data hdata hmagic p
  rw [h.count data hdata hmagic]
  exact h.exist p

namespace Session

variable {s : Session}

/-- The object of a process before `deserialize`. -/
def Starts (s : Session) (t : PoolTree) : Prop := ∃ d, IndexFile d ∧ t = s.start (newBpm s.poolSize d)

/-- `deserialize` reads the metadata page behind the pool. -/
theorem deserialize_onPool (s : Session) : Prog.Follows True (BTree.onStore (BufferPoolManager.file s.poolSize))
    s.Starts (Pooled s.poolSize 0) BTree.deserialize BTree.deserialize := by
  rintro t u t' ⟨d, hfile, rfl⟩ - hrun
  obtain ⟨data, hdata, hmagic, hroom, rfl⟩ := checked_deserialize_eq_ok hrun
  have hexist := hfile data hdata hmagic
  have hread : onDiskManager (readPage BTREE_METADATA_PAGE_ID) (newBpm s.poolSize d) =
      (.ok data, newBpm s.poolSize d) := Prog.zoom_ok (Shows.readPage_ok hdata)
  refine ⟨_, deserialize_of_read hread hmagic, rfl, Coherent.init d s.pos s.small, rfl, s.small, ?_, hexist, ?_, ?_⟩
  · have hno := mt (hexist (UInt32.ofNat s.poolSize)).mpr (not_not.mpr hroom)
    have hsmall := s.small
    rw [UInt32.toNat_ofNat', Nat.mod_eq_of_lt (by omega)] at hno
    exact Nat.lt_of_not_le hno
  · intro data' hdata' _
    cases hdata.symm.trans hdata'
    rfl
  · have hsmall := s.small
    exact (DirInv.init s.poolSize d (by have := s.pos; omega)).frameIn_eq_none.mpr (by simp)

theorem body_onPool (s : Session) : Prog.Follows True (BTree.onStore (BufferPoolManager.file s.poolSize)) s.Starts
    (Pooled s.poolSize 0) s.body s.body :=
  .bind s.deserialize_onPool fun _ => .runAll (fun op => (pooled_followsFile s.poolSize).call op) s.ops

theorem body_onFile (s : Session) : Prog.Follows False (BTree.onStore (CheckedFile.mk (n := s.poolSize)))
    (fun _ => True) (fun _ => True) s.body s.body := by
  have hload : Prog.Follows False (BTree.onStore (CheckedFile.mk (n := s.poolSize))) (fun _ => True) (fun _ => True)
      BTree.deserialize BTree.deserialize := by
    intro t u t' _ _ hrun
    obtain ⟨data, hdata, hmagic, -, rfl⟩ := checked_deserialize_eq_ok hrun
    exact ⟨_, deserialize_of_read (Shows.readPage_ok hdata) hmagic, rfl, trivial⟩
  exact .bind hload fun _ => .runAll (fun op => plain_followsFile.call op) s.ops

theorem onPool_follows (s : Session) : Prog.Follows True id IndexFile IndexFile s.onPool s.checked := by
  unfold onPool checked on
  exact s.body_onPool.zoom (fun d hd => ⟨⟨d, hd, rfl⟩, rfl⟩) fun d t _ h => ⟨h.indexFile, rfl⟩

theorem onFile_follows (s : Session) : Prog.Follows False id (fun _ => True) (fun _ => True) s.onFile s.checked := by
  unfold onFile checked on
  exact s.body_onFile.zoom (fun _ _ => ⟨trivial, rfl⟩) fun _ _ _ _ => ⟨trivial, rfl⟩

end Session

/-- **One process.** Where its calls return on its buffer pool and on the checked file, the process has on the pool what
it has on the plain file, and the frame of every resident page holds that page as it is in the file. -/
theorem process_onFile {s : Session} {d : Disk} {rs rs' : List (Option PageId)} {t : PoolTree}
    {t' : BTree (CheckedFile s.poolSize)} (hd : IndexFile d)
    (hpool : s.body (s.start (newBpm s.poolSize d)) = (.ok rs, t))
    (hchecked : s.body (s.start (CheckedFile.mk d)) = (.ok rs', t')) :
    s.body (s.start d) = (.ok rs, t.onStore (·.diskManager)) ∧
      ∀ p f page, frameOf t.bpm p = some f → t.bpm.pages[f]? = some page → t.bpm.diskManager p = some page.data := by
  obtain ⟨t₁, hpool', ht₁, h⟩ := s.body_onPool _ _ _ ⟨d, hd, rfl⟩ (fun _ => ⟨_, _, hpool⟩) hchecked
  obtain ⟨t₂, hfile, ht₂, -⟩ := s.body_onFile (s.start d) _ _ trivial (fun h => h.elim) hchecked
  cases hpool.symm.trans hpool'
  refine ⟨?_, fun p f page hframe hpage => ?_⟩
  · have hsame : t₂ = t.onStore (·.diskManager) := by
      have hview := congrArg (BTree.onStore CheckedFile.disk) (ht₂.trans ht₁.symm)
      exact hview
    rw [hfile, hsame]
  · rw [← h.coherent.clean p, contentOf, hframe]
    simp [hpage]

/-- Insertions that split the root, and a removal. -/
def firstProcess : Session := ⟨9, by decide, by decide, BTree.zeroMemory.onStore fun _ => (), reopenOps⟩

set_option maxRecDepth 8192 in
theorem process_onFile_first : ∃ rs t, firstProcess.body (firstProcess.start (createBtreeIndex 2)) = (.ok rs, t) := by
  obtain ⟨rs, hpool⟩ := Prog.eq_ok_of_isOk (m := firstProcess.body)
    (s := firstProcess.start (newBpm firstProcess.poolSize (createBtreeIndex 2))) (by decide +kernel)
  obtain ⟨rs', hchecked⟩ := Prog.eq_ok_of_isOk (m := firstProcess.body)
    (s := firstProcess.start (CheckedFile.mk (n := firstProcess.poolSize) (createBtreeIndex 2))) (by decide +kernel)
  exact ⟨rs, _, (process_onFile (indexFile_create 2) hpool hchecked).1⟩

/-- Processes on an index file: with their pools they return what they return on the plain file. -/
theorem runAll_onFile {ss : List Session} {rs rs' : List (List (Option PageId))} {d₀ d d' : Disk} (hd : IndexFile d₀)
    (hpool : Prog.runAll Session.onPool ss d₀ = (.ok rs, d))
    (hchecked : Prog.runAll Session.checked ss d₀ = (.ok rs', d')) :
    Prog.runAll Session.onFile ss d₀ = (.ok rs, d) := by
  obtain ⟨d₁, hpool', hd₁, -⟩ := Prog.Follows.runAll Session.onPool_follows ss _ _ _ hd (fun _ => ⟨_, _, hpool⟩)
    hchecked
  obtain ⟨d₂, hfile, hd₂, -⟩ := Prog.Follows.runAll Session.onFile_follows ss _ _ _ trivial (fun h => h.elim) hchecked
  cases hpool.symm.trans hpool'
  cases hd₁.trans hd₂.symm
  exact hfile

/-- **Processes on one index file.** If the processes return with their buffer pools, and their calls return on the
checked file, then with their pools they return what they return on the plain file and leave the same file. -/
theorem sessions_onFile {m : UInt8} {ss : List Session} {rs rs' : List (List (Option PageId))} {d d' : Disk}
    (hpool : Prog.runAll Session.onPool ss (createBtreeIndex m) = (.ok rs, d))
    (hchecked : Prog.runAll Session.checked ss (createBtreeIndex m) = (.ok rs', d')) :
    Prog.runAll Session.onFile ss (createBtreeIndex m) = (.ok rs, d) :=
  runAll_onFile (indexFile_create m) hpool hchecked

/-- A second process inserts again. -/
def twoProcesses : List Session :=
  [firstProcess, ⟨7, by decide, by decide, BTree.zeroMemory.onStore fun _ => (), [.insert (byteKey 68) ⟨4, 0⟩]⟩]

set_option maxRecDepth 8192 in
theorem sessions_onFile_two : ∃ rs d,
    Prog.runAll Session.onFile twoProcesses (createBtreeIndex 2) = (.ok rs, d) := by
  obtain ⟨rs, hpool⟩ := Prog.eq_ok_of_isOk (m := Prog.runAll Session.onPool twoProcesses) (s := createBtreeIndex 2)
    (by decide +kernel)
  obtain ⟨rs', hchecked⟩ := Prog.eq_ok_of_isOk (m := Prog.runAll Session.checked twoProcesses)
    (s := createBtreeIndex 2) (by decide +kernel)
  exact ⟨rs, _, sessions_onFile hpool hchecked⟩

end SomeDB
