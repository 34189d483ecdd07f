import SomeDB.Index.View
import SomeDB.Lib.Simulation

/-!
# The index on a checked file

The functions of the index are written for every page store. `CheckedFile n` is the plain file with two checks: it
faults if a node is read from the metadata page, and if the file gets more than `n` pages. `FollowsFile` says of a store
that its calls do what those of the checked file do. Then all functions of the index do (`indexOp`), and runs of them.
The plain file is such a store without a condition (`plain_followsFile`).
-/

namespace SomeDB

open Lib

/-- A file of at most `n` pages, in which no node is read from the metadata page. -/
structure CheckedFile (n : Nat) where
  disk : Disk

/-- Run a program on the pages of a checked file. -/
def CheckedFile.run {n : Nat} {α : Type} (p : Prog Fault Disk α) : Prog Fault (CheckedFile n) α :=
  Prog.zoom (·.disk) (fun _ d => ⟨d⟩) p

theorem CheckedFile.run_eq_ok {n : Nat} {α : Type} {p : Prog Fault Disk α} {file file' : CheckedFile n} {a : α}
    (h : CheckedFile.run p file = (.ok a, file')) : p file.disk = (.ok a, file'.disk) := by
  obtain ⟨d, hp, rfl⟩ := Prog.zoom_eq_ok h
  exact hp

instance (n : Nat) : PageStore (CheckedFile n) where
  fetchBpmPage pid :=
    if pid = BTREE_METADATA_PAGE_ID then Prog.fault .assertion
    else CheckedFile.run (PageStore.fetchBpmPage pid)
  flushNode pid data := CheckedFile.run (PageStore.flushNode pid data)
  onDisk p := do
    let a ← CheckedFile.run p
    let file ← Prog.get
    if file.disk (UInt32.ofNat n) = none then pure a else Prog.fault .outOfBounds

/-- The index on another store. -/
def BTree.onStore {σ τ : Type} (f : σ → τ) (t : BTree σ) : BTree τ where
  magicNum := t.magicNum
  maxSize := t.maxSize
  bpm := f t.bpm
  rootPid := t.rootPid
  nodeCount := t.nodeCount
  heap := t.heap
  serialized := t.serialized

section Calls

variable {n : Nat} {pid : PageId} {data : Page}

theorem checkedFetch_eq_ok {file file' : CheckedFile n} {r : PageId × Page}
    (h : (PageStore.fetchBpmPage pid : Prog Fault (CheckedFile n) (PageId × Page)) file = (.ok r, file')) :
    pid ≠ 0 ∧ r.1 = pid ∧ file.disk pid = some r.2 ∧ file' = file := by
  simp only [PageStore.fetchBpmPage] at h
  split at h
  · cases h
  · next hpid =>
    obtain ⟨d, hread, rfl⟩ := Prog.zoom_eq_ok h
    obtain ⟨data, d', hpage, hret⟩ := Prog.bind_eq_ok hread
    cases hret
    obtain ⟨hdata, rfl⟩ := readPage_eq_ok hpage
    exact ⟨hpid, rfl, hdata, rfl⟩

theorem checkedFlush_eq_ok {file file' : CheckedFile n} {u : Unit}
    (h : (PageStore.flushNode pid data : Prog Fault (CheckedFile n) Unit) file = (.ok u, file')) :
    file.disk pid ≠ none ∧ file' = ⟨file.disk.write pid data⟩ := by
  simp only [PageStore.flushNode] at h
  obtain ⟨d, hwrite, rfl⟩ := Prog.zoom_eq_ok h
  obtain ⟨old, d', hpage, hret⟩ := Prog.bind_eq_ok hwrite
  obtain ⟨hold, rfl⟩ := readPage_eq_ok hpage
  cases hret
  refine ⟨fun hnone => ?_, rfl⟩
  cases hold.symm.trans hnone

theorem checkedOnDisk_eq_ok {α : Type} {p : Prog Fault Disk α} {file file' : CheckedFile n} {a : α}
    (h : (PageStore.onDisk p : Prog Fault (CheckedFile n) α) file = (.ok a, file')) :
    p file.disk = (.ok a, file'.disk) ∧ file'.disk (UInt32.ofNat n) = none := by
  simp only [PageStore.onDisk] at h
  obtain ⟨b, file₁, hrun, h₁⟩ := Prog.bind_eq_ok h
  have hp := CheckedFile.run_eq_ok hrun
  rw [Prog.get_bind] at h₁
  split at h₁
  · next hnone =>
    cases h₁
    exact ⟨hp, hnone⟩
  · cases h₁

end Calls

/-! ## Node pages and the metadata page -/

namespace BTreePage

/-- The slots take four bytes each. -/
theorem serializeLoop_start {p : BTreePage} {i s e s' e' : Nat} {data data' : Page}
    (h : p.serializeLoop i data s e = .ok (data', s', e')) (hs : s % 2 = 0) : s' % 2 = 0 := by
  induction i generalizing data s e with
  | zero =>
    cases h
    exact hs
  | succ i ih =>
    rw [serializeLoop] at h
    obtain ⟨key, -, h⟩ := except_bind_eq_ok h
    obtain ⟨valBuf, -, h⟩ := except_bind_eq_ok h
    obtain ⟨data₁, -, h⟩ := except_bind_eq_ok h
    obtain ⟨data₂, -, h⟩ := except_bind_eq_ok h
    exact ih h (by omega)

/-- A node does not begin with the magic number: where its slots end is even. -/
theorem serializeInto_magic {p : BTreePage} {buf data : Page} (h : p.serializeInto buf = .ok data) :
    decodeUint32 (data.slice 0 4) ≠ BTREE_INDEX := by
  obtain ⟨⟨page, s, e⟩, hloop, h⟩ := except_bind_eq_ok h
  have heven := serializeLoop_start hloop (by decide)
  have hstart : data.slice 0 (2 + (2 + (4 + (4 + 2)))) = p.headerBytes s e := by
    cases h
    exact Block.slice_blit_of_length page (by simp [headerBytes]) (by decide)
  rw [Block.slice_add, headerBytes, List.append_assoc, List.append_assoc, List.append_assoc] at hstart
  obtain ⟨hstart, -⟩ := List.append_inj hstart (by simp)
  simp only [Block.slice_succ, Block.slice_zero] at hstart ⊢
  -- the first two bytes
  have hfirst := decodeUint16_toNat (data.byte 0) (data.byte (0 + 1))
  rw [hstart, decodeUint16_encodeUint16, UInt16.toNat_ofNat'] at hfirst
  intro hmagic
  have hfour := decodeUint32_toNat (data.byte 0) (data.byte (0 + 1)) (data.byte (0 + 1 + 1)) (data.byte (0 + 1 + 1 + 1))
  rw [hmagic, show BTREE_INDEX.toNat = 0x951F6C01 from rfl] at hfour
  have hthird := (data.byte (0 + 1 + 1)).toNat_lt
  have hfourth := (data.byte (0 + 1 + 1 + 1)).toNat_lt
  omega

end BTreePage

/-! ## Stores that follow the checked file -/

section Follow

variable {σ : Type} [PageStore σ] {n : Nat}

/-- The programs do the same on a store and on its file. In `I k` there are `k` pages that are not counted yet. -/
abbrev SameOnFile {α : Type} (ran : Prop) (f : σ → CheckedFile n) (I : Nat → BTree σ → Prop) (k k' : Nat)
    (m : TreeM σ α) (m' : TreeM (CheckedFile n) α) : Prop :=
  Prog.Follows ran (BTree.onStore f) (I k) (I k') m m'

theorem assert_follows {ran : Prop} {σ τ : Type} {view : σ → τ} {I : σ → Prop} (c : Prop) [Decidable c] :
    Prog.Follows ran view I I (SomeDB.assert c) (SomeDB.assert c) := by
  unfold SomeDB.assert
  exact .ite (.pure ()) (.fault _ _)

/-- A function of the store. -/
theorem onBpm_follows {ran : Prop} {σ τ α : Type} [PageStore σ] [PageStore τ] {f : σ → τ} {I J : BTree σ → Prop}
    {m : Prog Fault σ α} {m' : Prog Fault τ α} (hm : ∀ t b file, I t → (ran → ∃ a bpm, m t.bpm = (.ok a, bpm)) →
      m' (f t.bpm) = (.ok b, file) → ∃ bpm, m t.bpm = (.ok b, bpm) ∧ f bpm = file ∧ J { t with bpm }) :
    Prog.Follows ran (BTree.onStore f) I J (BTree.onBpm m) (BTree.onBpm m') := by
  intro t b t' hI hran hrun
  unfold BTree.onBpm at hran hrun ⊢
  obtain ⟨file, hfile, rfl⟩ := Prog.zoom_eq_ok hrun
  have hran' : ran → ∃ a bpm, m t.bpm = (.ok a, bpm) := fun hr => by
    obtain ⟨a, s, hs⟩ := hran hr
    obtain ⟨bpm, hbpm, -⟩ := Prog.zoom_eq_ok hs
    exact ⟨a, bpm, hbpm⟩
  obtain ⟨bpm, hbpm, rfl, hJ⟩ := hm t b file hI hran' hfile
  exact ⟨_, Prog.zoom_ok hbpm, rfl, hJ⟩

/-- The calls of a store do what those of the checked file do. -/
structure FollowsFile (ran : Prop) (f : σ → CheckedFile n) (I : Nat → BTree σ → Prop) : Prop where
  congr : ∀ {k t t'}, I k t → t'.bpm = t.bpm → t'.nodeCount = t.nodeCount → I k t'
  counted : ∀ {k j t}, j ≤ 2 → I (k + j) t → I k { t with nodeCount := t.nodeCount + UInt16.ofNat j }
  fetch : ∀ k p, SameOnFile ran f I k k (BTree.fetch p) (BTree.fetch p)
  flush : ∀ k p data, decodeUint32 (data.slice 0 4) ≠ BTREE_INDEX →
    SameOnFile ran f I k k (BTree.flush p data) (BTree.flush p data)
  flushMeta : SameOnFile ran f I 0 0 BTree.flushMeta BTree.flushMeta
  newIndexPage : ∀ k isLeaf, SameOnFile ran f I k (k + 1) (BTree.newIndexPage isLeaf) (BTree.newIndexPage isLeaf)

/-- Run an operation: the page that an insertion returns. -/
def IndexOp.call : IndexOp → TreeM σ (Option PageId)
  | .insert key val => do
    let pid ← BTree.insert key val
    pure (some pid)
  | .remove key => do
    BTree.remove key
    pure none

namespace FollowsFile

open Prog Prog.Follows

variable {ran : Prop} {f : σ → CheckedFile n} {I : Nat → BTree σ → Prop} (h : FollowsFile ran f I) {k : Nat}
include h

/-- What is not on the store is the same in both. -/
theorem modify {g : BTree σ → BTree σ} {g' : BTree (CheckedFile n) → BTree (CheckedFile n)}
    (hg : ∀ t, (g t).onStore f = g' (t.onStore f)) (hbpm : ∀ t, (g t).bpm = t.bpm)
    (hcount : ∀ t, (g t).nodeCount = t.nodeCount) : SameOnFile ran f I k k (Prog.modify g) (Prog.modify g') :=
  Follows.modify hg fun t ht => h.congr ht (hbpm t) (hcount t)

theorem alloc : SameOnFile ran f I k k BTree.alloc BTree.alloc := by
  intro t u t' ht _ hrun
  cases hrun
  exact ⟨_, rfl, rfl, h.congr ht rfl rfl⟩

theorem newNode (isLeaf : Bool) : SameOnFile ran f I k k (BTree.newNode isLeaf) (BTree.newNode isLeaf) := by
  unfold BTree.newNode
  exact bind h.alloc fun _ => pure _

theorem serializeNode (node : BTreePage) :
    SameOnFile ran f I k k (BTree.serializeNode node) (BTree.serializeNode node) := by
  unfold BTree.serializeNode
  refine bind h.alloc fun _ => bind (h.modify ?_ ?_ ?_) fun _ => lift _
  all_goals exact fun _ => rfl

theorem flushNode (p : PageId) (node : BTreePage) :
    SameOnFile ran f I k k (BTree.flushNode p node) (BTree.flushNode p node) := by
  unfold BTree.flushNode
  refine bind_of (h.serializeNode node) (fun t data t' hrun => ?_) fun data hdata => h.flush k p data hdata
  obtain ⟨u, t₁, -, h₁⟩ := bind_eq_ok hrun
  obtain ⟨_, t₂, -, h₂⟩ := bind_eq_ok h₁
  exact BTreePage.serializeInto_magic (Prod.mk.inj h₂).1

theorem fetchNode (p : PageId) : SameOnFile ran f I k k (BTree.fetchNode p) (BTree.fetchNode p) := by
  unfold BTree.fetchNode
  exact bind (h.fetch k p) fun _ => bind (lift _) fun _ => pure _

theorem getBtreePage (p : PageId) : SameOnFile ran f I k k (BTree.getBtreePage p) (BTree.getBtreePage p) := by
  unfold BTree.getBtreePage
  exact bind (h.fetchNode p) fun _ => pure _

theorem getPrevBreadcrumbPid (top : Option Crumb) :
    SameOnFile ran f I k k (BTree.getPrevBreadcrumbPid top) (BTree.getPrevBreadcrumbPid top) := by
  cases top with
  | none => exact pure _
  | some c => exact bind (h.fetch k _) fun _ => pure _

theorem findLeafScan (key : BTreeKey) (fuel i : Nat) (curr : PageId) (temp : BTreePage) (crumbs : List Crumb) :
    SameOnFile ran f I k k (BTree.findLeafScan key fuel i curr temp crumbs)
      (BTree.findLeafScan key fuel i curr temp crumbs) := by
  induction fuel generalizing i curr temp crumbs with
  | zero => exact fault _ _
  | succ fuel ih =>
    unfold BTree.findLeafScan
    refine ite (bind (lift _) fun _ => bind (lift _) fun _ => ite ?_ ?_) (pure _)
    · exact bind (lift _) fun _ => bind (lift _) fun _ => bind (h.fetchNode _) fun _ => ih _ _ _ _
    · exact ih _ _ _ _

theorem findLeafLoop (key : BTreeKey) (fuel : Nat) (curr : PageId) (temp : BTreePage) (crumbs : List Crumb) :
    SameOnFile ran f I k k (BTree.findLeafLoop key fuel curr temp crumbs)
      (BTree.findLeafLoop key fuel curr temp crumbs) := by
  induction fuel generalizing curr temp crumbs with
  | zero => exact fault _ _
  | succ fuel ih =>
    unfold BTree.findLeafLoop
    refine ite (pure _) (bind (lift _) fun _ => ite ?_ ?_)
    · exact bind (lift _) fun _ => bind (lift _) fun _ => bind (h.fetchNode _) fun _ => ih _ _ _
    · exact bind (h.findLeafScan _ _ _ _ _ _) fun _ => bind (h.fetchNode _) fun _ => ih _ _ _

theorem findLeaf (key : BTreeKey) : SameOnFile ran f I k k (BTree.findLeaf key) (BTree.findLeaf key) := by
  unfold BTree.findLeaf
  exact get_bind fun _ => bind (h.fetchNode _) fun _ => h.findLeafLoop _ _ _ _ _

/-- The pages that were made are counted. -/
theorem count (j : Nat) (hj : j ≤ 2) :
    SameOnFile ran f I (k + j) k (Prog.modify fun t => { t with nodeCount := t.nodeCount + UInt16.ofNat j })
      (Prog.modify fun t => { t with nodeCount := t.nodeCount + UInt16.ofNat j }) :=
  Follows.modify (fun _ => rfl) fun _ ht => h.counted hj ht

theorem setRoot (root : PageId) : SameOnFile ran f I k k (Prog.modify fun t => { t with rootPid := root })
    (Prog.modify fun t => { t with rootPid := root }) :=
  h.modify (fun _ => rfl) (fun _ => rfl) fun _ => rfl

/-- Two pages are made, and counted before the metadata page is written. -/
theorem splitRootNode (isLeaf : Bool) (node : BTreePage) :
    SameOnFile ran f I 0 0 (BTree.splitRootNode isLeaf node) (BTree.splitRootNode isLeaf node) := by
  unfold BTree.splitRootNode
  refine get_bind fun _ => bind (lift _) fun _ => bind (h.newIndexPage 0 _) fun _ => bind (h.newIndexPage 1 _) fun _ =>
    bind (h.newNode _) fun _ => bind (h.newNode _) fun _ => bind (h.count (k := 0) 2 (Nat.le_refl 2)) fun _ =>
    bind (lift _) fun _ => bind (h.setRoot _) fun _ => bind (assert_follows _) fun _ => bind h.flushMeta fun _ => ?_
  exact bind (h.flushNode _ _) fun _ => bind (h.flushNode _ _) fun _ => bind (h.flushNode _ _) fun _ => pure _

theorem splitIntoParent (isLeaf : Bool) (node : BTreePage) (p : PageId) (top : Option Crumb) :
    SameOnFile ran f I 0 0 (BTree.splitIntoParent isLeaf node p top) (BTree.splitIntoParent isLeaf node p top) := by
  unfold BTree.splitIntoParent
  refine bind (lift _) fun _ => bind (h.newNode _) fun _ => bind (h.newIndexPage 0 _) fun _ =>
    bind (h.count (k := 0) 1 (Nat.le_succ 1)) fun _ => bind (lift _) fun _ => bind (h.getPrevBreadcrumbPid _) fun _ =>
    bind (h.getBtreePage _) fun _ => bind (lift _) fun _ => bind (lift _) fun _ => bind (assert_follows _) fun _ => ?_
  exact bind (h.flushNode _ _) fun _ => bind (h.flushNode _ _) fun _ => bind (h.flushNode _ _) fun _ => pure _

theorem splitRootPage : SameOnFile ran f I 0 0 BTree.splitRootPage BTree.splitRootPage := by
  unfold BTree.splitRootPage
  exact get_bind fun _ => bind (h.getBtreePage _) fun _ => bind (h.splitRootNode _ _) fun _ => pure _

theorem splitNonRootNode (isLeaf : Bool) (node : BTreePage) (p : PageId) (crumbs : List Crumb) :
    SameOnFile ran f I 0 0 (BTree.splitNonRootNode isLeaf node p crumbs)
      (BTree.splitNonRootNode isLeaf node p crumbs) := by
  fun_induction BTree.splitNonRootNode (σ := σ) isLeaf node p crumbs with
  | case1 =>
    exact bind (h.splitIntoParent _ _ _ _) fun _ => get_bind fun _ =>
      ite (bind h.splitRootPage fun _ => pure _) (pure _)
  | case2 =>
    exact bind (h.splitIntoParent _ _ _ _) fun _ => get_bind fun _ =>
      ite (bind h.splitRootPage fun _ => pure _) (pure _)
  | case3 _ _ _ _ _ _ ih =>
    exact bind (h.splitIntoParent _ _ _ _) fun _ => get_bind fun _ =>
      ite (bind (h.getPrevBreadcrumbPid _) fun _ => bind (h.getBtreePage _) fun _ => bind (ih _ _) fun _ => pure _)
        (pure _)

theorem createRoot : SameOnFile ran f I 0 0 BTree.createRoot BTree.createRoot := by
  unfold BTree.createRoot
  refine get_bind fun _ => ite (bind (h.newIndexPage 0 _) fun _ => bind (h.setRoot _) fun _ => ?_) (pure _)
  exact bind (assert_follows _) fun _ => h.count (k := 0) 1 (Nat.le_succ 1)

theorem splitFullLeaf (leaf : BTreePage) (p : PageId) (crumbs : List Crumb) :
    SameOnFile ran f I 0 0 (BTree.splitFullLeaf leaf p crumbs) (BTree.splitFullLeaf leaf p crumbs) := by
  unfold BTree.splitFullLeaf
  refine get_bind fun _ => ite (bind (assert_follows _) fun _ => ite ?_ ?_) (pure _)
  · exact h.splitRootNode _ _
  · exact h.splitNonRootNode _ _ _ _

theorem insert (key : BTreeKey) (val : RID) : SameOnFile ran f I 0 0 (BTree.insert key val) (BTree.insert key val) := by
  unfold BTree.insert
  refine bind h.createRoot fun _ => bind (h.findLeaf _) fun _ => bind (assert_follows _) fun _ => ite (pure _) ?_
  exact bind (lift _) fun _ => bind (h.splitFullLeaf _ _ _) fun _ => bind (h.flushNode _ _) fun _ => pure _

theorem mergeLeafNodes (loc : BTree.LocalInfo) (idx : Int) (isLeftSib : Bool) :
    SameOnFile ran f I k k (BTree.mergeLeafNodes loc idx isLeftSib) (BTree.mergeLeafNodes loc idx isLeftSib) := by
  unfold BTree.mergeLeafNodes
  refine bind (lift _) fun _ => bind (lift _) fun _ => bind (lift _) fun _ => get_bind fun _ => ite (pure _) ?_
  refine ite ?_ (ite ?_ ?_)
  · exact bind (h.flushNode _ _) fun _ => bind (lift _) fun _ => pure _
  · exact bind (h.flushNode _ _) fun _ => pure _
  · exact bind (lift _) fun _ => bind (h.flushNode _ _) fun _ => pure _

theorem mergeInternalNodes (loc : BTree.LocalInfo) (idx : Int) (isLeftSib : Bool) :
    SameOnFile ran f I k k (BTree.mergeInternalNodes loc idx isLeftSib)
      (BTree.mergeInternalNodes loc idx isLeftSib) := by
  unfold BTree.mergeInternalNodes
  refine get_bind fun _ => ite (pure _) (bind (lift _) fun _ => bind (lift _) fun _ => ite ?_ ?_)
  · exact bind (lift _) fun _ => bind (h.flushNode _ _) fun _ => pure _
  · exact bind (lift _) fun _ => bind (lift _) fun _ => bind (h.flushNode _ _) fun _ => pure _

theorem mergeNodes (loc : BTree.LocalInfo) (crumb : Crumb) (isLeftSib : Bool) :
    SameOnFile ran f I k k (BTree.mergeNodes loc crumb isLeftSib) (BTree.mergeNodes loc crumb isLeftSib) := by
  unfold BTree.mergeNodes
  refine ite (h.mergeLeafNodes _ _ _) (bind (h.mergeInternalNodes _ _ _) fun _ => ite ?_ (pure _))
  exact bind (h.flushNode _ _) fun _ => pure _

theorem merge (p : PageId) (crumbs : List Crumb) :
    SameOnFile ran f I 0 0 (BTree.merge p crumbs) (BTree.merge p crumbs) := by
  induction crumbs generalizing p with
  | nil => exact fault _ _
  | cons c rest ih =>
    unfold BTree.merge
    refine bind (h.getBtreePage _) fun _ => bind (lift _) fun _ => bind (h.getBtreePage _) fun _ =>
      bind (lift _) fun _ => bind (h.getBtreePage _) fun _ => bind (h.mergeNodes _ _ _) fun _ =>
      bind (h.flushNode _ _) fun _ => ?_
    cases rest with
    | nil => exact ite (bind (h.setRoot _) fun _ => h.flushMeta) (pure _)
    | cons c' rest => exact ih _

theorem remove (key : BTreeKey) : SameOnFile ran f I 0 0 (BTree.remove key) (BTree.remove key) := by
  unfold BTree.remove
  refine bind (h.findLeaf _) fun r => bind (lift _) fun _ => bind (lift _) fun _ => bind (lift _) fun _ =>
    bind (h.flushNode _ _) fun _ => ?_
  cases r.2.2 with
  | nil => exact pure _
  | cons c rest => exact h.merge _ _

theorem call (op : IndexOp) : SameOnFile ran f I 0 0 op.call op.call := by
  cases op with
  | insert key val => exact bind (h.insert key val) fun _ => pure _
  | remove key => exact bind (h.remove key) fun _ => pure _

end FollowsFile

end Follow

/-! ## The plain file -/

section Plain

variable {n k : Nat}

theorem plain_flush {I : BTree Disk → Prop} (p : PageId) (data : Page) :
    Prog.Follows False (BTree.onStore (CheckedFile.mk (n := n))) I (fun _ => True) (BTree.flush p data)
      (BTree.flush p data) := by
  unfold BTree.flush
  refine onBpm_follows fun t u file _ _ hrun => ⟨_, ?_, (checkedFlush_eq_ok hrun).2.symm, trivial⟩
  obtain ⟨old, hold⟩ := Option.ne_none_iff_exists'.mp (checkedFlush_eq_ok hrun).1
  exact Prog.bind_ok (Shows.readPage_ok hold)

/-- The plain file does what the checked file does, where that does not fault. -/
theorem plain_followsFile : FollowsFile False (CheckedFile.mk (n := n)) fun _ _ => True := by
  refine ⟨fun _ _ _ => trivial, fun _ _ => trivial, fun k p => ?_, fun k p data _ => plain_flush p data, ?_,
    fun k isLeaf => ?_⟩
  · unfold BTree.fetch
    refine onBpm_follows fun t r file _ _ hrun => ?_
    obtain ⟨-, hid, hdata, rfl⟩ := checkedFetch_eq_ok hrun
    refine ⟨t.bpm, ?_, rfl, trivial⟩
    rw [show r = (p, r.2) from Prod.ext hid rfl]
    exact Prog.bind_ok (Shows.readPage_ok hdata)
  · unfold BTree.flushMeta
    refine .bind (J := fun _ => True) ?_ fun _ => .get_bind fun t => plain_flush _ _
    intro t u t' _ _ hrun
    cases hrun
    exact ⟨_, rfl, rfl, trivial⟩
  · unfold BTree.newIndexPage
    exact onBpm_follows fun t p file _ _ hrun => ⟨_, (checkedOnDisk_eq_ok hrun).1, rfl, trivial⟩

end Plain

end SomeDB
