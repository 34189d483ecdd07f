import SomeDB.Index.IndexPage
import SomeDB.Disk.DiskManager

/-!
# The B+tree index (`btree_index.hpp`, `btree_index.cpp`, `btree_strategy.cpp`)

The functions are programs over a `BTree`. They reach pages only through `fetch_bpm_page` and
`flush_node` of the buffer pool and through the disk manager behind it, so they are written for every
`PageStore`. The instance `PageStore Disk` is the buffer pool as a faithful page store: a fetch
returns the page as it was last flushed.

Two fields of `BTree` are not in the source. `heap` holds the contents of the memory blocks that
`new` will hand out, in order: what is left uninitialised is read from it. `serialized` lists the
nodes on which `serialize()` was called, the last one first; no function reads it.
-/

namespace SomeDB

open Lib

/-- What the index uses of the buffer pool. -/
class PageStore (σ : Type) where
  /-- `fetch_bpm_page`: the `id` and the `data` of the frame. -/
  fetchBpmPage : PageId → Prog Fault σ (PageId × Page)
  /-- `BTree::flush_node`. -/
  flushNode : PageId → Page → Prog Fault σ Unit
  /-- Run a function of the disk manager on `bpm->disk_manager`. -/
  onDisk : {α : Type} → Prog Fault Disk α → Prog Fault σ α

/-- The buffer pool as a faithful page store. -/
instance : PageStore Disk where
  fetchBpmPage pid := do
    let data ← readPage pid
    pure (pid, data)
  flushNode pid data := do
    let _ ← readPage pid
    writePage pid data
  onDisk p := p

/-- `BTree`. -/
structure BTree (σ : Type) where
  magicNum : UInt32
  maxSize : UInt8
  bpm : σ
  rootPid : PageId
  nodeCount : UInt16
  heap : Nat → Uninit
  serialized : List BTreePage

abbrev TreeM (σ : Type) := Prog Fault (BTree σ)

/-- `BREADCRUMB_TYPE`: an internal node on the path and the index of the child taken, -1 for
`rightmost_ptr`. A stack of them is a list with its top first. -/
abbrev Crumb := PageId × Int

namespace BTree

variable {σ : Type} [PageStore σ]

/-- Run a function of the buffer pool. -/
def onBpm {α : Type} (p : Prog Fault σ α) : TreeM σ α :=
  Prog.zoom (·.bpm) (fun t b => { t with bpm := b }) p

/-- `fetch_bpm_page(pid, bpm)`. -/
def fetch (pid : PageId) : TreeM σ (PageId × Page) := onBpm (PageStore.fetchBpmPage pid)

/-- `flush_node(pid, data, bpm)`. -/
def flush (pid : PageId) (data : Page) : TreeM σ Unit := onBpm (PageStore.flushNode pid data)

/-- `new_btree_index_page(bpm->disk_manager, is_leaf)`. -/
def newIndexPage (isLeaf : Bool) : TreeM σ PageId :=
  onBpm (PageStore.onDisk (newBtreeIndexPage isLeaf))

/-- `new`: the contents of the block it returns. -/
def alloc : TreeM σ Uninit := fun t =>
  (.ok (t.heap 0), { t with heap := fun n => t.heap (n + 1) })

/-- `std::make_unique<BTreePage>(is_leaf)`. -/
def newNode (isLeaf : Bool) : TreeM σ BTreePage := do
  let u ← alloc
  pure (BTreePage.new isLeaf u)

/-- `node->serialize()`. -/
def serializeNode (node : BTreePage) : TreeM σ Page := do
  let u ← alloc
  Prog.modify fun t => { t with serialized := node :: t.serialized }
  Prog.lift (node.serializeInto u.bytes)

/-- `flush_node(pid, node->serialize(), bpm)`. -/
def flushNode (pid : PageId) (node : BTreePage) : TreeM σ Unit := do
  let data ← serializeNode node
  flush pid data

/-- The metadata page that `BTree::serialize` writes into a buffer. -/
def metaPage (t : BTree σ) (buf : Page) : Page :=
  let data := buf.blit 0 (encodeUint32 t.magicNum)
  let data := data.blit 4 (encodeUint16 t.nodeCount)
  let data := data.blit 7 (encodeUint32 t.rootPid)
  data.blit 6 [t.maxSize]

/-- `flush_node(BTREE_METADATA_PAGE_ID, serialize(), bpm)`. -/
def flushMeta : TreeM σ Unit := do
  let u ← alloc
  let t ← Prog.get
  flush BTREE_METADATA_PAGE_ID (t.metaPage u.bytes)

/-- `BTree::deserialize`. -/
def deserialize : TreeM σ Unit := do
  let metadata ← onBpm (PageStore.onDisk (readPage BTREE_METADATA_PAGE_ID))
  let magicNum := decodeUint32 (metadata.slice 0 4)
  Prog.modify fun t => { t with magicNum }
  assert (magicNum = BTREE_INDEX)
  Prog.modify fun t => { t with
    nodeCount := decodeUint16 (metadata.slice 4 2)
    rootPid := decodeUint32 (metadata.slice 7 4)
    maxSize := metadata.byte 6 }

/-- The object `junk` after `deserialize()` on the file that `create_btree_index` made. The constructor
of `BTree` sets no field but `bpm`. -/
def opened (maxKeys : UInt8) (junk : BTree Disk) : BTree Disk :=
  (deserialize { junk with bpm := createBtreeIndex maxKeys, serialized := [] }).2

/-- Memory that holds zeros. -/
def zeroMemory : BTree Disk where
  magicNum := 0
  maxSize := 0
  bpm := fun _ => none
  rootPid := 0
  nodeCount := 0
  heap := fun _ => ⟨0, 0, 0, Block.zero⟩
  serialized := []

/-- `std::make_unique<BTreePage>(fetch_bpm_page(pid, bpm)->data)`, with the id of the frame. -/
def fetchNode (pid : PageId) : TreeM σ (PageId × BTreePage) := do
  let (id, data) ← fetch pid
  let node ← Prog.lift (BTreePage.decode data)
  pure (id, node)

/-- `getBtreePage`. -/
def getBtreePage (pid : PageId) : TreeM σ BTreePage := do
  let (_, node) ← fetchNode pid
  pure node

/-- `getPrevBreadcrumbPid` of the top of the stack, if there is one. The caller pops it. -/
def getPrevBreadcrumbPid : Option Crumb → TreeM σ PageId
  | none => pure 0
  | some top => do
    let (id, _) ← fetch top.1
    pure id

/-! ## Search -/

/-- The scan of `findLeaf` for an inner child, with `n` turns left before the `u16` index wraps. The
node it scans is replaced when a child is taken, and the scan goes on with the next index. -/
def findLeafScan (key : BTreeKey) :
    Nat → Nat → PageId → BTreePage → List Crumb → TreeM σ (PageId × BTreePage × List Crumb)
  | 0, _, _, _, _ => Prog.fault .diverges
  | n + 1, i, curr, temp, breadcrumbs =>
    if i < temp.keys.length then do
      let prevKey ← Prog.lift (vecAt temp.keys (i - 1))
      let currKey ← Prog.lift (vecAt temp.keys i)
      if cmpKeys prevKey key > 0 ∧ cmpKeys currKey key ≤ 0 then
        let children ← Prog.lift temp.internalChildren
        let nextPtr ← Prog.lift (vecAt children i)
        let (curr', temp') ← fetchNode nextPtr
        findLeafScan key n (i + 1) curr' temp' ((curr, (i : Int)) :: breadcrumbs)
      else findLeafScan key n (i + 1) curr temp breadcrumbs
    else pure (curr, temp, breadcrumbs)

/-- The loop of `findLeaf`. There are 2^32 page ids, so a descent of more turns has come back to a
page it left before and never ends. -/
def findLeafLoop (key : BTreeKey) :
    Nat → PageId → BTreePage → List Crumb → TreeM σ (PageId × BTreePage × List Crumb)
  | 0, _, _, _ => Prog.fault .diverges
  | n + 1, curr, temp, breadcrumbs =>
    if temp.isLeaf then pure (curr, temp, breadcrumbs)
    else do
      let firstKey ← Prog.lift (vecAt temp.keys 0)
      if cmpKeys firstKey key > 0 then
        -- provided key is smaller than first existing key
        let children ← Prog.lift temp.internalChildren
        let nextPtr ← Prog.lift (vecAt children 0)
        let (curr', temp') ← fetchNode nextPtr
        findLeafLoop key n curr' temp' ((curr, 0) :: breadcrumbs)
      else
        let (curr, temp, breadcrumbs) ← findLeafScan key 65535 1 curr temp breadcrumbs
        let (curr', temp') ← fetchNode temp.rightmostPtr
        findLeafLoop key n curr' temp' ((curr, -1) :: breadcrumbs)

/-- `findLeaf`: the page id of the leaf, the leaf, and the breadcrumbs. -/
def findLeaf (key : BTreeKey) : TreeM σ (PageId × BTreePage × List Crumb) := do
  let t ← Prog.get
  let (curr, temp) ← fetchNode t.rootPid
  findLeafLoop key (2 ^ 32) curr temp []

/-! ## Insertion -/

/-- `redistribute_kv<VAL_T>`: the new node and the old one. -/
def redistributeKv (isLeaf : Bool) (emptyNode fullNode : BTreePage) :
    Except Fault (BTreePage × BTreePage) := do
  let emptyKeys ← vecSecondHalf fullNode.keys emptyNode.isLeaf
  let fullKeys ← vecFirstHalf fullNode.keys false
  if isLeaf then
    let fullVals ← fullNode.leafRecords
    let emptyVals ← vecSecondHalf fullVals true
    let keptVals ← vecFirstHalf fullVals false
    .ok ({ emptyNode with keys := emptyKeys, values := .records emptyVals },
      { fullNode with keys := fullKeys, values := .records keptVals })
  else
    let fullVals ← fullNode.internalChildren
    let emptyVals ← vecSecondHalf fullVals false
    let keptVals ← vecFirstHalf fullVals true
    let lastKept ← vecAt keptVals (keptVals.length - 1)
    -- `full_vals.pop_back()` pops a copy: the last child kept stays in the values of the old node
    let emptyNode := { emptyNode with
      keys := emptyKeys, values := .children emptyVals, rightmostPtr := fullNode.rightmostPtr }
    .ok (emptyNode,
      { fullNode with keys := fullKeys, values := .children keptVals, rightmostPtr := lastKept })

/-- `splitRootNode<VAL_T>`: the old root as it leaves it. -/
def splitRootNode (isLeaf : Bool) (oldRootNode : BTreePage) : TreeM σ BTreePage := do
  let oldRootPid := (← Prog.get).rootPid
  let midKey ← Prog.lift (vecAt oldRootNode.keys (oldRootNode.keys.length / 2))
  let newNodeId ← newIndexPage isLeaf
  let newRootId ← newIndexPage false
  let newNode ← newNode isLeaf
  let newRoot ← BTree.newNode false
  Prog.modify fun t => { t with nodeCount := t.nodeCount + 2 }
  let (newNode, oldRootNode) ← Prog.lift (redistributeKv isLeaf newNode oldRootNode)
  let oldRootNode := { oldRootNode with next := newNodeId }
  -- create new root and connect nodes to it
  let newRoot := { newRoot with
    keys := [midKey], values := .children [oldRootPid], rightmostPtr := newNodeId }
  Prog.modify fun t => { t with rootPid := newRootId }
  -- persist all changes
  assert (newNodeId ≠ BTREE_METADATA_PAGE_ID ∧ newRootId ≠ BTREE_METADATA_PAGE_ID)
  flushMeta
  flushNode newNodeId newNode
  flushNode newRootId newRoot
  flushNode oldRootPid oldRootNode
  pure oldRootNode

/-- `splitNonRootNode<VAL_T>` up to the check whether the parent overflows: the old node as it leaves
it, and the parent. `top` is the top of the breadcrumbs, which it pops. -/
def splitIntoParent (isLeaf : Bool) (oldNode : BTreePage) (oldNodePid : PageId) (top : Option Crumb) :
    TreeM σ (BTreePage × BTreePage) := do
  let midKey ← Prog.lift (vecAt oldNode.keys (oldNode.keys.length / 2))
  let newNode ← newNode isLeaf
  let newNodeId ← newIndexPage isLeaf
  Prog.modify fun t => { t with nodeCount := t.nodeCount + 1 }
  let (newNode, oldNode) ← Prog.lift (redistributeKv isLeaf newNode oldNode)
  -- update sibling pointers
  let newNode := { newNode with next := oldNode.next }
  let oldNode := { oldNode with next := newNodeId }
  -- update parent
  let parentPid ← getPrevBreadcrumbPid top
  let parent ← getBtreePage parentPid
  let parent ← Prog.lift (parent.insertChild midKey oldNodePid)
  let lastKey ← Prog.lift (vecAt parent.keys (parent.keys.length - 1))
  let parent := if lastKey = midKey then { parent with rightmostPtr := newNodeId } else parent
  -- persist to disk
  assert (newNodeId ≠ BTREE_METADATA_PAGE_ID ∧ oldNodePid ≠ BTREE_METADATA_PAGE_ID)
  flushNode parentPid parent
  flushNode newNodeId newNode
  flushNode oldNodePid oldNode
  pure (oldNode, parent)

/-- The split of the root that `splitNonRootNode` makes when the parent was the root: the root is read
back from its page. -/
def splitRootPage : TreeM σ Unit := do
  let rootPage ← getBtreePage (← Prog.get).rootPid
  let _ ← splitRootNode false rootPage
  pure ()

/-- `splitNonRootNode<VAL_T>`: the old node as it leaves it. With no breadcrumb left above the parent,
the root is split; else a breadcrumb is taken off for the node to split next, and the recursive call
takes its parent from the breadcrumb below. -/
def splitNonRootNode (isLeaf : Bool) (oldNode : BTreePage) (oldNodePid : PageId) :
    List Crumb → TreeM σ BTreePage
  | [] => do
    let (oldNode, parent) ← splitIntoParent isLeaf oldNode oldNodePid none
    let t ← Prog.get
    if parent.keys.length > t.maxSize.toNat then splitRootPage
    pure oldNode
  | [top] => do
    let (oldNode, parent) ← splitIntoParent isLeaf oldNode oldNodePid (some top)
    let t ← Prog.get
    if parent.keys.length > t.maxSize.toNat then splitRootPage
    pure oldNode
  | top :: above :: breadcrumbs => do
    let (oldNode, parent) ← splitIntoParent isLeaf oldNode oldNodePid (some top)
    let t ← Prog.get
    if parent.keys.length > t.maxSize.toNat then
      let topPid ← getPrevBreadcrumbPid (some above)
      let topNode ← getBtreePage topPid
      let _ ← splitNonRootNode false topNode topPid breadcrumbs
    pure oldNode

/-- The beginning of `BTree::insert`: an index without a root gets an empty leaf as its root. -/
def createRoot : TreeM σ Unit := do
  let t ← Prog.get
  if t.rootPid ≤ BTREE_METADATA_PAGE_ID then
    let rootPid ← newIndexPage true
    Prog.modify fun t => { t with rootPid }
    assert (rootPid ≠ BTREE_METADATA_PAGE_ID)
    Prog.modify fun t => { t with nodeCount := t.nodeCount + 1 }

/-- The split in `BTree::insert`: the leaf as it is left. -/
def splitFullLeaf (leaf : BTreePage) (leafPid : PageId) (breadcrumbs : List Crumb) :
    TreeM σ BTreePage := do
  let t ← Prog.get
  if t.maxSize.toNat < leaf.keys.length then
    assert (t.rootPid ≠ BTREE_METADATA_PAGE_ID)
    if breadcrumbs.isEmpty then splitRootNode true leaf
    else splitNonRootNode true leaf leafPid breadcrumbs
  else pure leaf

/-- `BTree::insert`. -/
def insert (key : BTreeKey) (val : RID) : TreeM σ PageId := do
  createRoot
  let (leafPid, leaf, breadcrumbs) ← findLeaf key
  assert (leafPid ≠ BTREE_METADATA_PAGE_ID)
  -- return early if duplicate key
  if leaf.keys.any fun leafKey => cmpKeys leafKey key == 0 then
    pure 0
  else
    let leaf ← Prog.lift (leaf.insertRecord key val)
    let leaf ← splitFullLeaf leaf leafPid breadcrumbs
    flushNode leafPid leaf
    pure leafPid

/-- An insertion as an operation of a run. -/
def insertOp (op : BTreeKey × RID) : TreeM σ PageId := insert op.1 op.2

/-! ## Removal -/

/-- `std::vector::erase(begin() + i)`: erasing at the end is undefined. -/
def vecErase {α : Type} (xs : List α) (i : Nat) : Except Fault (List α) :=
  if i < xs.length then .ok (xs.eraseIdx i) else .error .outOfBounds

/-- `BTreePageLocalInfo`. -/
structure LocalInfo where
  node : BTreePage
  nodePid : PageId
  sibling : BTreePage
  siblingPid : PageId
  parent : BTreePage

/-- `std::vector::pop_back`: on an empty vector it is undefined. -/
def vecPopBack {α : Type} (xs : List α) : Except Fault (List α) := vecErase xs (xs.length - 1)

/-- What `MergeLeafNodeStrategy::merge` does to the parent when the last leaf was moved into the sibling
to its left: with one key left the sibling becomes the first child, else the rightmost one, and the last
child and key are popped. -/
def leftMergedParent (parent : BTreePage) (siblingPid : PageId) : Except Fault BTreePage := do
  let parentVals ← parent.internalChildren
  if parent.keys.length = 1 then
    let _ ← vecAt parentVals 0
    let values ← vecPopBack (parentVals.set 0 siblingPid)
    let keys ← vecPopBack parent.keys
    pure { parent with keys, values := .children values }
  else
    let values ← vecPopBack parentVals
    let keys ← vecPopBack parent.keys
    pure { parent with keys, values := .children values, rightmostPtr := siblingPid }

/-- What it does to the parent when the leaf to the right, which is not the last one, was moved into the
child `idx`. -/
def rightMergedParent (parent : BTreePage) (idx : Int) (nodePid : PageId) : Except Fault BTreePage := do
  let parentVals ← parent.internalChildren
  let parentVals ← vecErase parentVals idx.toNat
  let _ ← vecAt parentVals idx.toNat
  let keys ← vecErase parent.keys idx.toNat
  pure { parent with keys, values := .children (parentVals.set idx.toNat nodePid) }

/-- `MergeLeafNodeStrategy::merge`; `idx` is the index of the parent's breadcrumb. -/
def mergeLeafNodes (loc : LocalInfo) (idx : Int) (isLeftSib : Bool) : TreeM σ LocalInfo := do
  let siblingVals ← Prog.lift loc.sibling.leafRecords
  let nodeVals ← Prog.lift loc.node.leafRecords
  let _ ← Prog.lift loc.parent.internalChildren
  let t ← Prog.get
  if loc.sibling.keys.length = 0 ∨ loc.node.keys.length + loc.sibling.keys.length > t.maxSize.toNat then
    pure loc
  else if isLeftSib then
    let sibling := { loc.sibling with
      keys := loc.sibling.keys ++ loc.node.keys, values := .records (siblingVals ++ nodeVals) }
    flushNode loc.siblingPid sibling
    let parent ← Prog.lift (leftMergedParent loc.parent loc.siblingPid)
    pure { loc with sibling, parent }
  else
    let node := { loc.node with
      keys := loc.node.keys ++ loc.sibling.keys, values := .records (nodeVals ++ siblingVals) }
    if loc.siblingPid = loc.parent.rightmostPtr then
      flushNode loc.nodePid node
      pure { loc with node, parent := { loc.parent with rightmostPtr := 0 } }
    else
      let node := { node with next := loc.sibling.next }
      let parent ← Prog.lift (rightMergedParent loc.parent idx loc.nodePid)
      flushNode loc.nodePid node
      pure { loc with node, parent }

/-- `MergeNonLeafNodeStrategy::merge` up to its last statement, which flushes the parent when the
nodes were merged; the result says whether they were. -/
def mergeInternalNodes (loc : LocalInfo) (idx : Int) (isLeftSib : Bool) :
    TreeM σ (LocalInfo × Bool) := do
  let totalPtrNum := (loc.node.keys.length + 1 + loc.sibling.keys.length + 1) % 65536
  if totalPtrNum > (← Prog.get).maxSize.toNat + 1 then
    pure (loc, false)
  else
    let siblingVals ← Prog.lift loc.sibling.internalChildren
    let nodeVals ← Prog.lift loc.node.internalChildren
    if isLeftSib then
      -- the separator key is the last key because we came to this level from the rightmost pointer
      let demotedKey ← Prog.lift (vecAt loc.parent.keys (loc.parent.keys.length - 1))
      let parent := { loc.parent with keys := loc.parent.keys.dropLast, rightmostPtr := 0 }
      let sibling := { loc.sibling with
        keys := loc.sibling.keys ++ [demotedKey] ++ loc.node.keys
        values := .children (siblingVals ++ [loc.sibling.rightmostPtr] ++ nodeVals)
        rightmostPtr := loc.node.rightmostPtr }
      flushNode loc.siblingPid sibling
      pure ({ loc with sibling, parent }, true)
    else
      let demotedKey ← Prog.lift (vecAt loc.parent.keys idx.toNat)
      let parentKeys ← Prog.lift (vecErase loc.parent.keys idx.toNat)
      let node := { loc.node with
        keys := loc.node.keys ++ [demotedKey] ++ loc.sibling.keys
        values := .children (nodeVals ++ siblingVals)
        rightmostPtr := loc.sibling.rightmostPtr }
      flushNode loc.nodePid node
      pure ({ loc with node, parent := { loc.parent with keys := parentKeys } }, true)

/-- `MergeContext::merge` with the strategy for the kind of the node. -/
def mergeNodes (loc : LocalInfo) (crumb : Crumb) (isLeftSib : Bool) : TreeM σ LocalInfo :=
  if loc.node.isLeaf then mergeLeafNodes loc crumb.2 isLeftSib
  else do
    let (loc, merged) ← mergeInternalNodes loc crumb.2 isLeftSib
    if merged then
      flushNode crumb.1 loc.parent
    pure loc

/-- The right sibling by default, unless the current node is the parent's rightmost pointer. -/
def sibPid (parentVals : List PageId) (node : BTreePage) (isLeftSib : Bool) : Except Fault PageId :=
  if isLeftSib then vecAt parentVals (parentVals.length - 1) else .ok node.next

/-- `BTree::merge`. -/
def merge (nodePid : PageId) : List Crumb → TreeM σ Unit
  | [] => Prog.fault .outOfBounds
  | parentCrumb :: breadcrumbs => do
    let parent ← getBtreePage parentCrumb.1
    let parentVals ← Prog.lift parent.internalChildren
    let node ← getBtreePage nodePid
    let isLeftSib : Bool := parentCrumb.2 = -1
    let siblingPid ← Prog.lift (sibPid parentVals node isLeftSib)
    let sibling ← getBtreePage siblingPid
    let loc ← mergeNodes ⟨node, nodePid, sibling, siblingPid, parent⟩ parentCrumb isLeftSib
    flushNode parentCrumb.1 loc.parent
    match breadcrumbs with
    | [] =>
      if loc.parent.keys.length = 0 then
        Prog.modify fun t => { t with
          rootPid := if isLeftSib then loc.siblingPid else loc.nodePid }
        flushMeta
      else pure ()
    | _ :: _ => merge parentCrumb.1 breadcrumbs

/-- The index at which the search loop of `remove` stops. -/
def keyIndex (keys : List BTreeKey) (key : BTreeKey) : Nat := keys.findIdx (· = key)

/-- `BTree::remove`. -/
def remove (key : BTreeKey) : TreeM σ Unit := do
  let (leafPid, leaf, breadcrumbs) ← findLeaf key
  let leafVals ← Prog.lift leaf.leafRecords
  let i := keyIndex leaf.keys key
  let keys ← Prog.lift (vecErase leaf.keys i)
  let vals ← Prog.lift (vecErase leafVals i)
  flushNode leafPid { leaf with keys, values := .records vals }
  match breadcrumbs with
  | [] => pure ()
  | _ :: _ => merge leafPid breadcrumbs

end BTree

/-- An operation of a run. -/
inductive IndexOp where
  | insert (key : BTreeKey) (val : RID)
  | remove (key : BTreeKey)

/-- Run an operation. What an insertion returns is dropped. -/
def IndexOp.run {σ : Type} [PageStore σ] : IndexOp → TreeM σ Unit
  | .insert key val => do
    let _ ← BTree.insert key val
    pure ()
  | .remove key => BTree.remove key

end SomeDB
