import SomeDB.Index.NodeInsert
import SomeDB.Index.BTreeIndex

/-!
# An index as its nodes

A `View` is what the index functions see of an index on a faithful page store: the fields of the
`BTree` object, the decoded nodes, and the decoded metadata page. `Shows t v`: the index `t` has the
view `v`. Each primitive has one lemma that says what it does to the view; the lemmas about
splitting and merging are built from these and never look at bytes.

`AllFit t`: every node that was serialized so far fits in a page. Programs only add to the list of
serialized nodes (`Logged`), so the nodes of a program that ran to its end fit if they do at the end.
-/

namespace SomeDB

open Lib

theorem eq_ok_of_toOption {ε α : Type} {x : Except ε α} {a : α} (h : x.toOption = some a) : x = .ok a := by
  cases x with
  | error e => cases h
  | ok b =>
    cases h
    rfl

/-- The node that page `pid` decodes to. -/
def Disk.nodeAt (d : Disk) (pid : PageId) : Option BTreePage :=
  match d pid with
  | some data => (BTreePage.decode data).toOption
  | none => none

/-- A page that holds a node: it is in the file, and decodes to the node. -/
theorem Disk.nodeAt_eq_some {d : Disk} {p : PageId} {n : BTreePage} (hn : d.nodeAt p = some n) :
    ∃ data, d p = some data ∧ BTreePage.decode data = .ok n := by
  unfold Disk.nodeAt at hn
  split at hn
  · next data hd => exact ⟨data, hd, eq_ok_of_toOption hn⟩
  · cases hn

theorem Disk.nodeAt_paired {d : Disk} {p : PageId} {n : BTreePage} (hn : d.nodeAt p = some n) :
    n.Paired ∧ n.valCount = n.keys.length ∧ n.keys.length < 4097 := by
  obtain ⟨data, -, hdec⟩ := Disk.nodeAt_eq_some hn
  exact BTreePage.decode_paired hdec

theorem Disk.nodeAt_write (d : Disk) (pid q : PageId) (data : Page) :
    (d.write pid data).nodeAt q = if q = pid then (BTreePage.decode data).toOption else d.nodeAt q := by
  by_cases h : q = pid
  · subst h; simp [nodeAt]
  · simp [nodeAt, write_ne d data h, h]

/-- What the index functions see of an index. -/
structure View where
  maxSize : UInt8
  rootPid : PageId
  nodeCount : UInt16
  node : PageId → Option BTreePage
  live : PageId → Bool
  diskMax : UInt8
  diskRoot : PageId
  diskCount : UInt16

/-- The metadata page `data` is intact and holds the given fields. -/
structure MetaPage (data : Page) (count : UInt16) (max : UInt8) (root : PageId) : Prop where
  magic : decodeUint32 (data.slice 0 4) = BTREE_INDEX
  count : decodeUint16 (data.slice 4 2) = count
  max : data.byte 6 = max
  root : decodeUint32 (data.slice 7 4) = root

/-- The index `t` has the view `v`. -/
structure Shows (t : BTree Disk) (v : View) : Prop where
  magicNum : t.magicNum = BTREE_INDEX
  maxSize : t.maxSize = v.maxSize
  rootPid : t.rootPid = v.rootPid
  nodeCount : t.nodeCount = v.nodeCount
  node : ∀ p, p ≠ 0 → t.bpm.nodeAt p = v.node p
  live : ∀ p, (t.bpm p).isSome = v.live p
  meta_ : ∃ data, t.bpm 0 = some data ∧ MetaPage data v.diskCount v.diskMax v.diskRoot

namespace View

/-- `v` with the node `n` in page `p`. -/
def put (v : View) (p : PageId) (n : BTreePage) : View :=
  { v with node := fun q => if q = p then some n else v.node q }

/-- The id of the next page that `new_btree_index_page` hands out. -/
def newId (v : View) : PageId := (v.diskCount + 1).toUInt32

/-- The empty leaf that a zeroed page decodes to. -/
def emptyLeaf : BTreePage := { keys := [], flags := 0, rightmostPtr := 0, next := 0, values := .records [] }

/-- `v` after `new_btree_index_page`. A zeroed internal page does not decode. -/
def addPage (v : View) (isLeaf : Bool) : View :=
  { v with
    diskCount := v.diskCount + 1
    node := fun q => if q = v.newId then (if isLeaf then some emptyLeaf else none) else v.node q
    live := fun q => q == v.newId || v.live q }

/-- The view of a fresh index: no nodes, and the metadata page. -/
def fresh (m : UInt8) : View where
  maxSize := m
  rootPid := 0
  nodeCount := 0
  node _ := none
  live p := p == 0
  diskMax := m
  diskRoot := 0
  diskCount := 0

/-- `v` after the metadata was flushed. -/
def syncMeta (v : View) : View :=
  { v with diskMax := v.maxSize, diskRoot := v.rootPid, diskCount := v.nodeCount }

@[simp] theorem put_maxSize (v : View) (p : PageId) (n : BTreePage) : (v.put p n).maxSize = v.maxSize := rfl
@[simp] theorem put_rootPid (v : View) (p : PageId) (n : BTreePage) : (v.put p n).rootPid = v.rootPid := rfl
@[simp] theorem put_nodeCount (v : View) (p : PageId) (n : BTreePage) : (v.put p n).nodeCount = v.nodeCount := rfl
@[simp] theorem put_live (v : View) (p : PageId) (n : BTreePage) : (v.put p n).live = v.live := rfl
@[simp] theorem put_diskMax (v : View) (p : PageId) (n : BTreePage) : (v.put p n).diskMax = v.diskMax := rfl
@[simp] theorem put_diskRoot (v : View) (p : PageId) (n : BTreePage) : (v.put p n).diskRoot = v.diskRoot := rfl
@[simp] theorem put_diskCount (v : View) (p : PageId) (n : BTreePage) : (v.put p n).diskCount = v.diskCount := rfl
@[simp] theorem put_node_same (v : View) (p : PageId) (n : BTreePage) : (v.put p n).node p = some n := by
  simp [put]

theorem put_node_ne (v : View) {p q : PageId} (n : BTreePage) (h : q ≠ p) :
    (v.put p n).node q = v.node q := by
  simp [put, h]

@[simp] theorem addPage_maxSize (v : View) (b : Bool) : (v.addPage b).maxSize = v.maxSize := rfl
@[simp] theorem addPage_rootPid (v : View) (b : Bool) : (v.addPage b).rootPid = v.rootPid := rfl
@[simp] theorem addPage_nodeCount (v : View) (b : Bool) : (v.addPage b).nodeCount = v.nodeCount := rfl
@[simp] theorem addPage_diskMax (v : View) (b : Bool) : (v.addPage b).diskMax = v.diskMax := rfl
@[simp] theorem addPage_diskRoot (v : View) (b : Bool) : (v.addPage b).diskRoot = v.diskRoot := rfl
@[simp] theorem addPage_diskCount (v : View) (b : Bool) : (v.addPage b).diskCount = v.diskCount + 1 := rfl
@[simp] theorem addPage_live_same (v : View) (b : Bool) : (v.addPage b).live v.newId = true := by
  simp [addPage]

theorem addPage_live {v : View} {b : Bool} {p : PageId} (h : v.live p) : (v.addPage b).live p := by
  simp [addPage, h]

theorem addPage_node_ne (v : View) (b : Bool) {q : PageId} (h : q ≠ v.newId) :
    (v.addPage b).node q = v.node q := by
  simp [addPage, h]

theorem put_of_node {v : View} {p : PageId} {n : BTreePage} (h : v.node p = some n) : v.put p n = v := by
  have hnode : (fun q => if q = p then some n else v.node q) = v.node := by
    funext q
    by_cases hq : q = p
    · rw [if_pos hq, hq, h]
    · rw [if_neg hq]
  rw [put, hnode]

/-- Only pages of the file hold nodes. -/
def Sound (v : View) : Prop := ∀ p n, p ≠ 0 → v.node p = some n → v.live p = true

/-- The pages of the file are those up to the counter on disk. -/
def Packed (v : View) : Prop := ∀ p, v.live p = true ↔ p.toNat ≤ v.diskCount.toNat

theorem newId_toNat (v : View) : v.newId.toNat = (v.diskCount.toNat + 1) % 65536 := by
  simp [newId]

theorem newId_toNat_of_ne {v : View} (h : v.newId ≠ 0) : v.newId.toNat = v.diskCount.toNat + 1 := by
  have hne : v.newId.toNat ≠ 0 := fun h0 => h (UInt32.toNat_inj.mp (by simpa using h0))
  have hlt := v.diskCount.toNat_lt
  rw [newId_toNat] at hne ⊢
  omega

theorem lt_of_newId {v : View} (h : v.newId ≠ 0) : v.diskCount.toNat + 1 < 65536 := by
  have := newId_toNat_of_ne h
  have hlt := (v.diskCount + 1).toNat_lt
  have hid : v.newId.toNat = (v.diskCount + 1).toNat := by simp [newId]
  omega

theorem diskCount_of_newId {v : View} (h : v.newId = 0) : v.diskCount.toNat = 65535 := by
  have hid := v.newId_toNat
  have hlt := v.diskCount.toNat_lt
  rw [h] at hid
  simp only [UInt32.toNat_zero] at hid
  omega

theorem newId_ne_zero {v : View} (h : v.diskCount.toNat + 1 < 65536) : v.newId ≠ 0 := by
  intro h0
  have := congrArg UInt32.toNat h0
  rw [newId_toNat] at this
  simp only [UInt32.toNat_zero] at this
  omega

theorem Packed.fresh {v : View} (h : v.Packed) (hn : v.newId ≠ 0) : v.live v.newId = false := by
  rw [← Bool.not_eq_true, h v.newId, newId_toNat_of_ne hn]
  omega

theorem Packed.ne_newId {v : View} (h : v.Packed) (hn : v.newId ≠ 0) {p : PageId}
    (hp : v.live p = true) : p ≠ v.newId := by
  rintro rfl
  rw [h.fresh hn] at hp
  cases hp

theorem diskCount_succ_toNat {v : View} (h : v.newId ≠ 0) :
    (v.diskCount + 1).toNat = v.diskCount.toNat + 1 := by
  have := newId_toNat_of_ne h
  simpa [newId] using this

theorem addPage_newId_ne_zero {v : View} (h : v.diskCount.toNat + 2 < 65536) (b : Bool) :
    (v.addPage b).newId ≠ 0 := by
  apply newId_ne_zero
  rw [addPage_diskCount, diskCount_succ_toNat (newId_ne_zero (by omega))]
  exact h

theorem Packed.addPage {v : View} (h : v.Packed) (hn : v.newId ≠ 0) (b : Bool) :
    (v.addPage b).Packed := by
  intro p
  have hid := newId_toNat_of_ne hn
  have hp : p = v.newId ↔ p.toNat = v.newId.toNat := UInt32.toNat_inj.symm
  simp only [View.addPage, Bool.or_eq_true, beq_iff_eq, hp, h p, hid, diskCount_succ_toNat hn]
  omega

end View

namespace Shows

variable {t : BTree Disk} {v : View}

/-- Fields that the view does not mention may change. -/
theorem congr (h : Shows t v) {t' : BTree Disk} (hm : t'.magicNum = t.magicNum)
    (hx : t'.maxSize = t.maxSize) (hb : t'.bpm = t.bpm) (hr : t'.rootPid = t.rootPid)
    (hn : t'.nodeCount = t.nodeCount) : Shows t' v where
  magicNum := hm.trans h.magicNum
  maxSize := hx.trans h.maxSize
  rootPid := hr.trans h.rootPid
  nodeCount := hn.trans h.nodeCount
  node p hp := by rw [hb]; exact h.node p hp
  live p := by rw [hb]; exact h.live p
  meta_ := by rw [hb]; exact h.meta_

theorem setCount (h : Shows t v) (c : UInt16) :
    Shows { t with nodeCount := c } { v with nodeCount := c } :=
  ⟨h.magicNum, h.maxSize, h.rootPid, rfl, h.node, h.live, h.meta_⟩

theorem setRoot (h : Shows t v) (r : PageId) : Shows { t with rootPid := r } { v with rootPid := r } :=
  ⟨h.magicNum, h.maxSize, rfl, h.nodeCount, h.node, h.live, h.meta_⟩

theorem live_of_node (h : Shows t v) {p : PageId} {n : BTreePage} (hp : p ≠ 0)
    (hn : v.node p = some n) : v.live p = true := by
  rw [← h.live p]
  have := h.node p hp
  rw [hn] at this
  cases hd : t.bpm p with
  | none => simp [Disk.nodeAt, hd] at this
  | some _ => rfl

theorem sound (h : Shows t v) : v.Sound := fun _ _ => h.live_of_node

/-- The nodes of a view were decoded from pages. -/
theorem paired (h : Shows t v) {p : PageId} {n : BTreePage} (hp : p ≠ 0) (hn : v.node p = some n) :
    n.Paired ∧ n.valCount = n.keys.length ∧ n.keys.length < 4097 :=
  Disk.nodeAt_paired ((h.node p hp).trans hn)

theorem zero_live (h : Shows t v) : v.live 0 = true := by
  obtain ⟨data, hd, -⟩ := h.meta_
  rw [← h.live 0, hd]; rfl

/-! ## Reading -/

theorem readPage_ok {d : Disk} {p : PageId} {data : Page} (h : d p = some data) :
    readPage p d = (.ok data, d) := by
  simp [readPage, h]

theorem fetch_some {t : BTree Disk} {p : PageId} {data : Page} (h : t.bpm p = some data) :
    BTree.fetch p t = (.ok (p, data), t) := by
  have hread : (PageStore.fetchBpmPage p : Prog Fault Disk (PageId × Page)) t.bpm = (.ok (p, data), t.bpm) :=
    Prog.bind_ok (readPage_ok h)
  rw [BTree.fetch, BTree.onBpm, Prog.zoom_ok hread]

/-- A page behind the end of the file ends the process. -/
theorem fetch_none {t : BTree Disk} {p : PageId} (h : t.bpm p = none) : BTree.fetch p t = (.error .exit, t) := by
  have hmiss : (PageStore.fetchBpmPage p : Prog Fault Disk (PageId × Page)) t.bpm = (.error .exit, t.bpm) :=
    Prog.bind_error (by simp [readPage, h])
  rw [BTree.fetch, BTree.onBpm, Prog.zoom, hmiss]

theorem fetchNode_eq {t : BTree Disk} {p : PageId} {n : BTreePage} (h : t.bpm.nodeAt p = some n) :
    BTree.fetchNode p t = (.ok (p, n), t) := by
  obtain ⟨data, hd, hdec⟩ := Disk.nodeAt_eq_some h
  rw [BTree.fetchNode, Prog.bind_ok (fetch_some hd)]
  simp only [hdec]
  rfl

/-- A fetch that returned: the page decodes to the node, and nothing changed. -/
theorem fetchNode_inv {t t' : BTree Disk} {p : PageId} {r : PageId × BTreePage}
    (h : BTree.fetchNode p t = (.ok r, t')) : t = t' ∧ p = r.1 ∧ t.bpm.nodeAt p = some r.2 := by
  cases hd : t.bpm p with
  | none =>
    rw [BTree.fetchNode, Prog.bind_error (fetch_none hd)] at h
    cases h
  | some data =>
    rw [BTree.fetchNode, Prog.bind_ok (fetch_some hd)] at h
    obtain ⟨n, hdec, h⟩ := Prog.lift_bind_eq_ok h
    cases h
    exact ⟨rfl, rfl, by simp [Disk.nodeAt, hd, hdec, Except.toOption]⟩

theorem fetchNode_ok (h : Shows t v) {p : PageId} {n : BTreePage} (hp : p ≠ 0)
    (hn : v.node p = some n) : BTree.fetchNode p t = (.ok (p, n), t) :=
  fetchNode_eq (by rw [h.node p hp, hn])

theorem getBtreePage_ok (h : Shows t v) {p : PageId} {n : BTreePage} (hp : p ≠ 0)
    (hn : v.node p = some n) : BTree.getBtreePage p t = (.ok n, t) := by
  rw [BTree.getBtreePage, Prog.bind_ok (h.fetchNode_ok hp hn)]; rfl

theorem fetch_ok (h : Shows t v) {p : PageId} (hp : v.live p = true) :
    ∃ data, BTree.fetch p t = (.ok (p, data), t) := by
  have hl := h.live p
  rw [hp] at hl
  obtain ⟨data, hd⟩ := Option.isSome_iff_exists.mp hl
  exact ⟨data, fetch_some hd⟩

theorem getPrevBreadcrumbPid_ok (h : Shows t v) {c : Crumb} (hp : v.live c.1 = true) :
    BTree.getPrevBreadcrumbPid (some c) t = (.ok c.1, t) := by
  obtain ⟨data, hf⟩ := h.fetch_ok hp
  rw [BTree.getPrevBreadcrumbPid, Prog.bind_ok hf]; rfl

/-! ## Writing -/

theorem flush_eq {t : BTree Disk} {p : PageId} (hp : (t.bpm p).isSome) (data : Page) :
    BTree.flush p data t = (.ok (), { t with bpm := t.bpm.write p data }) := by
  obtain ⟨old, hd⟩ := Option.isSome_iff_exists.mp hp
  have : (PageStore.flushNode p data : Prog Fault Disk Unit) t.bpm =
      (.ok (), t.bpm.write p data) := Prog.bind_ok (readPage_ok hd)
  rw [BTree.flush, BTree.onBpm, Prog.zoom_ok this]

theorem flush_none {t : BTree Disk} {p : PageId} (hp : t.bpm p = none) (data : Page) :
    BTree.flush p data t = (.error .exit, t) := by
  have hmiss : (PageStore.flushNode p data : Prog Fault Disk Unit) t.bpm = (.error .exit, t.bpm) :=
    Prog.bind_error (by simp [readPage, hp])
  rw [BTree.flush, BTree.onBpm, Prog.zoom, hmiss]

/-- A node that fits is stored without the values beyond its last key. -/
theorem flushNode_ok (h : Shows t v) {p : PageId} {n : BTreePage} (hp : p ≠ 0)
    (hl : v.live p = true) (hn : n.Paired) (hf : n.FitsPage) :
    ∃ t', BTree.flushNode p n t = (.ok (), t') ∧ Shows t' (v.put p n.trim) := by
  obtain ⟨data, hser, hdec⟩ := BTreePage.decode_serializeInto hn hf (t.heap 0).bytes
  have hs : BTree.serializeNode n t = (.ok data, { t with
      heap := fun i => t.heap (i + 1), serialized := n :: t.serialized }) := by
    simp only [BTree.serializeNode, BTree.alloc, Bind.bind, Prog.modify, Prog.lift, hser]
  have hlive : (t.bpm p).isSome := by rw [h.live p]; exact hl
  have hrun : BTree.flushNode p n t = (.ok (), { t with
      heap := fun i => t.heap (i + 1), serialized := n :: t.serialized,
      bpm := t.bpm.write p data }) := by
    rw [BTree.flushNode, Prog.bind_ok hs]
    exact flush_eq (by exact hlive) data
  refine ⟨_, hrun, h.magicNum, h.maxSize, h.rootPid, h.nodeCount, ?_, ?_, ?_⟩
  · intro q hq
    simp only [Disk.nodeAt_write, hdec, Except.toOption, View.put, h.node q hq]
  · intro q
    by_cases hqp : q = p
    · subst hqp; simp [hl]
    · simpa [Disk.write_ne _ data hqp] using h.live q
  · obtain ⟨m, hm, hmeta⟩ := h.meta_
    exact ⟨m, (Disk.write_ne _ data (Ne.symm hp)).trans hm, hmeta⟩

theorem metaPage_metaPage (t : BTree Disk) (buf : Page) (hm : t.magicNum = BTREE_INDEX) :
    MetaPage (t.metaPage buf) t.nodeCount t.maxSize t.rootPid := by
  unfold BTree.metaPage
  simp only
  constructor
  · rw [Block.slice_blit_disjoint _ (by simp), Block.slice_blit_disjoint _ (by simp),
      Block.slice_blit_disjoint _ (by simp), Block.slice_blit_of_length _ (by simp) (by omega),
      decodeUint32_encodeUint32, hm]
  · rw [Block.slice_blit_disjoint _ (by simp), Block.slice_blit_disjoint _ (by simp),
      Block.slice_blit_of_length _ (by simp) (by omega), decodeUint16_encodeUint16]
  · rw [Block.byte_blit _ _ _ _ (by omega)]
    simp
  · rw [Block.slice_blit_disjoint _ (by simp), Block.slice_blit_of_length _ (by simp) (by omega),
      decodeUint32_encodeUint32]

theorem flushMeta_ok (h : Shows t v) :
    ∃ t', BTree.flushMeta t = (.ok (), t') ∧ Shows t' v.syncMeta := by
  have hz : (t.bpm 0).isSome := by rw [h.live 0]; exact h.zero_live
  have hrun : BTree.flushMeta t = (.ok (), { t with
      heap := fun i => t.heap (i + 1)
      bpm := t.bpm.write 0 (t.metaPage (t.heap 0).bytes) }) := by
    have ha : (BTree.alloc : TreeM Disk Uninit) t =
        (.ok (t.heap 0), { t with heap := fun i => t.heap (i + 1) }) := rfl
    rw [BTree.flushMeta, Prog.bind_ok ha, Prog.get_bind]
    exact flush_eq (p := 0) (by simpa using hz) _
  refine ⟨_, hrun, h.magicNum, h.maxSize, h.rootPid, h.nodeCount, ?_, ?_, ?_⟩
  · intro q hq
    simp only [Disk.nodeAt_write, if_neg hq, h.node q hq, View.syncMeta]
  · intro q
    by_cases hq : q = 0
    · subst hq; simp [View.syncMeta, h.zero_live]
    · simpa [Disk.write_ne _ _ hq, View.syncMeta] using h.live q
  · refine ⟨t.metaPage (t.heap 0).bytes, by simp, ?_⟩
    have := metaPage_metaPage t (t.heap 0).bytes h.magicNum
    rwa [h.nodeCount, h.maxSize, h.rootPid] at this

/-! ## New pages -/

theorem decodePairs_skip {α : Type} {data : Page} {valSize skip cursor : Nat} {dec : List UInt8 → α}
    (fuel : Nat) (hc : cursor < 4096) (hb : data.byte cursor = 0) :
    decodePairs data valSize dec skip (fuel + 1) cursor =
      decodePairs data valSize dec skip fuel (cursor + skip) := by
  rw [decodePairs, if_pos hc]
  simp [hb]

/-- The scan of a zeroed leaf steps over the whole page, eight bytes at a time. -/
theorem decodePairs_freshLeaf {α : Type} (dec : List UInt8 → α) (fuel i : Nat) (hi : i ≤ 512)
    (h : 512 < i + fuel) : decodePairs (freshNodePage true) 8 dec 8 fuel (8 * i) = .ok [] := by
  induction fuel generalizing i with
  | zero => omega
  | succ fuel ih =>
    by_cases hc : 8 * i < 4096
    · have hb : (freshNodePage true).byte (8 * i) = 0 := by
        rw [freshNodePage, Block.byte_blit_disjoint _ (by simp; omega), Block.byte_zero]
      rw [decodePairs_skip fuel hc hb]
      exact ih (i + 1) (by omega) (by omega)
    · rw [decodePairs, if_neg hc]

/-- The scan of a zeroed internal node stays where it is. -/
theorem decodePairs_freshInternal {α : Type} (dec : List UInt8 → α) (fuel : Nat) :
    decodePairs (freshNodePage false) 4 dec 0 fuel 0 = .error .diverges := by
  induction fuel with
  | zero => rfl
  | succ fuel ih =>
    have hb : (freshNodePage false).byte 0 = 0 := by
      rw [freshNodePage, Block.byte_blit_disjoint _ (by simp), Block.byte_zero]
    rw [decodePairs_skip fuel (by omega) hb]
    exact ih

theorem freshNodePage_header (isLeaf : Bool) :
    decodeUint16 ((freshNodePage isLeaf).slice 2 2) = 0 ∧
      decodeUint32 ((freshNodePage isLeaf).slice 4 4) = 0 ∧
      decodeUint32 ((freshNodePage isLeaf).slice 8 4) = 0 ∧ (freshNodePage isLeaf).byte 12 = 0 ∧
      (freshNodePage isLeaf).byte 13 = if isLeaf then 1 else 0 := by
  cases isLeaf <;> decide

theorem decode_freshNodePage (isLeaf : Bool) :
    (BTreePage.decode (freshNodePage isLeaf)).toOption =
      if isLeaf then some View.emptyLeaf else none := by
  obtain ⟨hcur, hnext, hright, hflags, hkind⟩ := freshNodePage_header isLeaf
  cases isLeaf with
  | true =>
    have := decodePairs_freshLeaf decodeRid 4097 0 (by omega) (by omega)
    simp only [if_true] at hkind
    simp only [BTreePage.decode, hcur, hnext, hright, hflags, hkind]
    simp [View.emptyLeaf, this, bind, Except.bind, Except.toOption]
  | false =>
    have := decodePairs_freshInternal decodeUint32 4097
    simp only [Bool.false_eq_true, if_false] at hkind
    simp only [BTreePage.decode, hcur, hnext, hright, hflags, hkind]
    simp [this, bind, Except.bind, Except.toOption]

/-- `new_btree_index_page` on an intact metadata page, also when the counter on it wraps. -/
theorem newBtreeIndexPage_run {d : Disk} {data : Page} {count : UInt16} {max : UInt8} {root : PageId}
    (hd : d 0 = some data) (hm : MetaPage data count max root) (isLeaf : Bool) :
    newBtreeIndexPage isLeaf d = (.ok (count + 1).toUInt32,
      (d.write 0 (data.blit 4 (encodeUint16 (count + 1)))).write (count + 1).toUInt32 (freshNodePage isLeaf)) := by
  rw [newBtreeIndexPage, Prog.bind_ok (readPage_ok hd)]
  simp only [hm.magic, hm.count, assert, if_true]
  rfl

theorem metaPage_setCount {data : Page} {count : UInt16} {max : UInt8} {root : PageId}
    (hm : MetaPage data count max root) (count' : UInt16) :
    MetaPage (data.blit 4 (encodeUint16 count')) count' max root := by
  constructor
  · rw [Block.slice_blit_disjoint _ (by simp)]; exact hm.magic
  · rw [Block.slice_blit_of_length _ (by simp) (by omega), decodeUint16_encodeUint16]
  · rw [Block.byte_blit_disjoint _ (by simp)]; exact hm.max
  · rw [Block.slice_blit_disjoint _ (by simp)]; exact hm.root

/-- The id of a new page, also when the counter on disk wraps. -/
theorem newIndexPage_fst (h : Shows t v) (isLeaf : Bool) :
    (BTree.newIndexPage isLeaf t).1 = .ok v.newId := by
  obtain ⟨data, hd, hmeta⟩ := h.meta_
  rw [BTree.newIndexPage, BTree.onBpm, Prog.zoom]
  simp only [PageStore.onDisk]
  rw [newBtreeIndexPage_run hd hmeta]
  rfl

/-- A new page. The counter on disk is a `u16`; when it wraps, the new page would be page 0. -/
theorem newIndexPage_ok (h : Shows t v) (isLeaf : Bool) (hn : v.newId ≠ 0) :
    ∃ t', BTree.newIndexPage isLeaf t = (.ok v.newId, t') ∧ Shows t' (v.addPage isLeaf) := by
  obtain ⟨data, hd, hmeta⟩ := h.meta_
  set data' := data.blit 4 (encodeUint16 (v.diskCount + 1)) with hdata'
  set d := (t.bpm.write 0 data').write v.newId (freshNodePage isLeaf) with hdd
  have hrun : newBtreeIndexPage isLeaf t.bpm = (.ok v.newId, d) := newBtreeIndexPage_run hd hmeta isLeaf
  have hpage : BTree.newIndexPage isLeaf t = (.ok v.newId, { t with bpm := d }) := by
    rw [BTree.newIndexPage, BTree.onBpm]
    exact Prog.zoom_ok hrun
  refine ⟨_, hpage, h.magicNum, h.maxSize, h.rootPid, h.nodeCount, ?_, ?_, ?_⟩
  · intro q hq
    show d.nodeAt q = _
    rw [hdd, Disk.nodeAt_write, Disk.nodeAt_write, if_neg hq, decode_freshNodePage, h.node q hq]
    rfl
  · intro q
    show (d q).isSome = _
    by_cases hqn : q = v.newId
    · subst hqn; simp [hdd]
    · by_cases hq0 : q = 0
      · subst hq0; simp [hdd, Disk.write_ne _ _ hqn, View.addPage, h.zero_live]
      · rw [hdd, Disk.write_ne _ _ hqn, Disk.write_ne _ _ hq0, h.live q]
        simp [View.addPage, hqn]
  · exact ⟨data', by simp [hdd, Disk.write_ne _ _ (Ne.symm hn)], metaPage_setCount hmeta _⟩

theorem newIndexPage_heap {t' : BTree Disk} {b : Bool} {p : PageId}
    (h : BTree.newIndexPage b t = (.ok p, t')) : t'.heap = t.heap := by
  rw [BTree.newIndexPage, BTree.onBpm] at h
  obtain ⟨d, -, rfl⟩ := Prog.zoom_eq_ok h
  rfl

theorem newIndexPage_serialized {t' : BTree Disk} {b : Bool} {p : PageId}
    (h : BTree.newIndexPage b t = (.ok p, t')) : t'.serialized = t.serialized := by
  rw [BTree.newIndexPage, BTree.onBpm] at h
  obtain ⟨d, -, rfl⟩ := Prog.zoom_eq_ok h
  rfl

/-- A new node. The memory that it leaves uninitialised is the next block of the heap. -/
theorem newNode_ok (h : Shows t v) (isLeaf : Bool) :
    ∃ t', BTree.newNode isLeaf t = (.ok (BTreePage.new isLeaf (t.heap 0)), t') ∧ Shows t' v :=
  ⟨{ t with heap := fun i => t.heap (i + 1) }, rfl, h.congr rfl rfl rfl rfl rfl⟩

/-! ## The metadata page -/

/-- Read as a node, an intact metadata page has no keys: the magic number puts the first pair past
the end of the page. -/
theorem decode_metaPage {data : Page} {count : UInt16} {max : UInt8} {root : PageId} {n : BTreePage}
    (hm : MetaPage data count max root) (hd : BTreePage.decode data = .ok n) : n.keys = [] := by
  have hcur : (decodeUint16 (data.slice 2 2)).toNat = 0x6C01 := by
    have hmagic := hm.magic
    simp only [Block.slice_succ, Block.slice_zero] at hmagic ⊢
    rw [decodeUint16_eq_mod (data.byte 0) (data.byte (0 + 1)), hmagic]
    decide
  have hend : ∀ {α : Type} (size skip : Nat) (dec : List UInt8 → α),
      decodePairs data size dec skip 4097 0x6C01 = .ok [] := fun _ _ _ => by
    rw [decodePairs, if_neg (by decide)]
  simp only [BTreePage.decode, hcur, hend, bind, Except.bind] at hd
  split at hd <;> cases hd <;> rfl

theorem nodeAt_zero (h : Shows t v) {n : BTreePage} (hn : t.bpm.nodeAt 0 = some n) : n.keys = [] := by
  obtain ⟨data, hd, hmeta⟩ := h.meta_
  obtain ⟨data', hd', hdec⟩ := Disk.nodeAt_eq_some hn
  cases hd.symm.trans hd'
  exact decode_metaPage hmeta hdec

/-- Opening an index reads the fields on its metadata page. -/
theorem deserialize_eq {t : BTree Disk} {data : Page} {count : UInt16} {max : UInt8} {root : PageId}
    (hd : t.bpm 0 = some data) (hm : MetaPage data count max root) : BTree.deserialize t = (.ok (), { t with
    magicNum := BTREE_INDEX, nodeCount := count, rootPid := root, maxSize := max }) := by
  have hread : BTree.onBpm (PageStore.onDisk (readPage BTREE_METADATA_PAGE_ID)) t =
      (.ok data, t) := Prog.zoom_ok (readPage_ok hd)
  rw [BTree.deserialize, Prog.bind_ok hread]
  simp only [hm.magic, hm.count, hm.max, hm.root, assert, if_true, Prog.modify_bind, Prog.pure_bind_apply,
    Prog.modify_apply]

/-! ## A fresh index -/

theorem metaPage_createBtreeIndex (m : UInt8) :
    ∃ data, createBtreeIndex m 0 = some data ∧ MetaPage data 0 m 0 := by
  refine ⟨_, rfl, ?_, ?_, ?_, ?_⟩
  · rw [Block.slice_blit_disjoint _ (by simp), Block.slice_blit_disjoint _ (by simp),
      Block.slice_blit_of_length _ (by simp) (by omega), decodeUint32_encodeUint32]
  · rw [Block.slice_blit_disjoint _ (by simp), Block.slice_blit_of_length _ (by simp) (by omega),
      decodeUint16_encodeUint16]
  · rw [Block.byte_blit _ _ _ _ (by omega)]
    simp
  · rw [Block.slice_blit_disjoint _ (by simp), Block.slice_blit_disjoint _ (by simp),
      Block.slice_blit_disjoint _ (by simp)]
    decide

theorem opened_eq (m : UInt8) (junk : BTree Disk) : BTree.opened m junk = { junk with
    magicNum := BTREE_INDEX, maxSize := m, rootPid := 0, nodeCount := 0, bpm := createBtreeIndex m,
    serialized := [] } := by
  obtain ⟨data, hd, hmeta⟩ := metaPage_createBtreeIndex m
  rw [BTree.opened, deserialize_eq (by exact hd) hmeta]

theorem opened_fresh (m : UInt8) (junk : BTree Disk) : Shows (BTree.opened m junk) (View.fresh m) := by
  obtain ⟨data, hd, hmeta⟩ := metaPage_createBtreeIndex m
  rw [opened_eq]
  refine ⟨rfl, rfl, rfl, rfl, ?_, ?_, data, hd, hmeta⟩
  · intro p hp
    simp [Disk.nodeAt, createBtreeIndex, hp, View.fresh]
  · intro p
    by_cases hp : p = 0 <;> simp [createBtreeIndex, hp, View.fresh]

end Shows

/-! ## An index with given nodes -/

/-- The page of a node. -/
def nodePage (n : BTreePage) : Option Page := (n.serializeInto Block.zero).toOption

/-- The node is read back from its page as it is. -/
def BTreePage.Kept (n : BTreePage) : Prop := n.Paired ∧ n.FitsPage ∧ n.trim = n

instance (n : BTreePage) : Decidable n.Kept :=
  inferInstanceAs (Decidable ((_ ∧ _) ∧ _ ∧ _))

/-- An index with the nodes in the pages 1, 2 and so on. -/
def indexOf (maxSize : UInt8) (rootPid : PageId) (nodes : List BTreePage) : BTree Disk :=
  let t : BTree Disk := { BTree.zeroMemory with
    magicNum := BTREE_INDEX, maxSize, rootPid, nodeCount := UInt16.ofNat nodes.length }
  { t with bpm := fun p => if p = 0 then some (t.metaPage Block.zero) else nodes[p.toNat - 1]?.bind nodePage }

/-- What it shows. -/
def viewOf (maxSize : UInt8) (rootPid : PageId) (nodes : List BTreePage) : View where
  maxSize := maxSize
  rootPid := rootPid
  nodeCount := UInt16.ofNat nodes.length
  node p := nodes[p.toNat - 1]?
  live p := p = 0 || decide (p.toNat ≤ nodes.length)
  diskMax := maxSize
  diskRoot := rootPid
  diskCount := UInt16.ofNat nodes.length

theorem indexOf_shows {maxSize : UInt8} {rootPid : PageId} {nodes : List BTreePage}
    (h : ∀ n ∈ nodes, n.Kept) : Shows (indexOf maxSize rootPid nodes) (viewOf maxSize rootPid nodes) := by
  have hpage : ∀ n ∈ nodes, ∃ data, nodePage n = some data ∧ BTreePage.decode data = .ok n := by
    intro n hn
    obtain ⟨hp, hf, ht⟩ := h n hn
    obtain ⟨data, hser, hdec⟩ := BTreePage.decode_serializeInto hp hf Block.zero
    exact ⟨data, by rw [nodePage, hser]; rfl, by rw [hdec, ht]⟩
  refine ⟨rfl, rfl, rfl, rfl, ?_, ?_, _, rfl, Shows.metaPage_metaPage _ _ rfl⟩
  · intro p hp
    simp only [indexOf, Disk.nodeAt, if_neg hp, viewOf]
    cases hn : nodes[p.toNat - 1]? with
    | none => rfl
    | some n =>
      obtain ⟨data, hdata, hdec⟩ := hpage n (List.mem_of_getElem? hn)
      simp only [Option.bind_some, hdata, hdec, Except.toOption]
  · intro p
    by_cases hp : p = 0
    · simp [indexOf, viewOf, hp]
    · have hpos : p.toNat ≠ 0 := fun h0 => hp (UInt32.toNat_inj.mp h0)
      simp only [indexOf, viewOf, hp, decide_false, Bool.false_or]
      cases hn : nodes[p.toNat - 1]? with
      | none =>
        have hge := List.getElem?_eq_none_iff.mp hn
        simp
        omega
      | some n =>
        have hlt := (List.getElem?_eq_some_iff.mp hn).1
        obtain ⟨data, hdata, -⟩ := hpage n (List.mem_of_getElem? hn)
        simp [hdata]
        omega

end SomeDB
