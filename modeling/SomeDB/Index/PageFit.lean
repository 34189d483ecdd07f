import SomeDB.Index.Capacity
import SomeDB.Index.NodeSize

/-!
# Nodes and the size of a page

`BTree::insert` limits the number of keys of a node and never looks at their bytes. `RoomFor t op` is the room that
the insertion `op` needs in the state `t`: in the leaf that the search finds, or in its two halves, and then in
their parent. Whatever else the call does, it stores nodes that were read from pages, halves of them, and roots
with one key.

* `NodesFit` is the invariant: every page holds a node that fits, and so did every node that was serialized.
* `insert_ensures`: with room, a call keeps it, wherever the call ends.
* `insert_run_fits`: so does every run.
-/

namespace SomeDB

open Lib

/-! ## Nodes and halves of nodes that fit -/

/-- The keys are not empty, and a node of this kind with them fits in a page. -/
def KeysFit (isLeaf : Bool) (keys : List BTreeKey) : Prop := (∀ k ∈ keys, 1 ≤ k.length) ∧ nodeSize isLeaf keys ≤ 4096

/-- Keys that fit in a leaf fit in an inner node. -/
theorem KeysFit.inner {b : Bool} {keys : List BTreeKey} (h : KeysFit b keys) : KeysFit false keys := by
  refine ⟨h.1, Nat.le_trans (Nat.add_le_add_left (List.sum_le_sum fun k _ => ?_) 26) h.2⟩
  cases b <;> simp

/-- The keys are not empty, and both halves of a node of this kind with them fit. -/
structure HalvesFit (isLeaf : Bool) (keys : List BTreeKey) : Prop where
  nonempty : ∀ k ∈ keys, 1 ≤ k.length
  lower : nodeSize isLeaf (keys.take (keys.length / 2)) ≤ 4096
  upper : nodeSize isLeaf (keys.drop (keys.length / 2 + if isLeaf then 0 else 1)) ≤ 4096

theorem KeysFit.halves {b : Bool} {keys : List BTreeKey} (h : KeysFit b keys) : HalvesFit b keys :=
  ⟨h.1, Nat.le_trans (nodeSize_sublist (List.take_sublist ..)) h.2,
    Nat.le_trans (nodeSize_sublist (List.drop_sublist ..)) h.2⟩

/-! ## The invariant -/

/-- Every page that holds a node holds one that fits, and every node that was serialized did. -/
structure NodesFit (t : BTree Disk) : Prop where
  magicNum : t.magicNum = BTREE_INDEX
  pages : ∀ p n, t.bpm.nodeAt p = some n → n.FitsPage
  logged : AllFit t

theorem NodesFit.keysFit {t : BTree Disk} (h : NodesFit t) {p : PageId} {n : BTreePage}
    (hn : t.bpm.nodeAt p = some n) : KeysFit n.isLeaf n.keys :=
  ⟨(Disk.nodeAt_paired hn).1.1, (fitsPage_iff n).mp (h.pages p n hn)⟩

section Primitives

variable {t : BTree Disk}

/-- A write of a page that holds a node that fits, or none. -/
theorem NodesFit.write (h : NodesFit t) {t' : BTree Disk} {p : PageId} {data : Page}
    (hbpm : t'.bpm = t.bpm.write p data) (hmagic : t'.magicNum = t.magicNum) (hlog : t'.serialized = t.serialized)
    (hdata : ∀ n, BTreePage.decode data = .ok n → n.FitsPage) : NodesFit t' := by
  refine ⟨hmagic.trans h.magicNum, fun q n hn => ?_, fun n hn => h.logged n (by rwa [hlog] at hn)⟩
  rw [hbpm, Disk.nodeAt_write] at hn
  split at hn
  · exact hdata n (eq_ok_of_toOption hn)
  · exact h.pages q n hn

/-- A flush of a node that fits. -/
theorem flushNode_ensures (h : NodesFit t) {n : BTreePage} (hn : KeysFit n.isLeaf n.keys) (p : PageId) :
    (BTree.flushNode p n).Ensures t (fun _ t' => NodesFit t') NodesFit := by
  have hfit : n.FitsPage := (fitsPage_iff n).mpr hn.2
  set t₁ : BTree Disk := { t with heap := fun i => t.heap (i + 1), serialized := n :: t.serialized } with ht₁
  have h₁ : NodesFit t₁ := by
    refine ⟨h.magicNum, h.pages, fun m hm => ?_⟩
    rcases List.mem_cons.mp hm with rfl | hm
    · exact hfit
    · exact h.logged m hm
  have hrun : BTree.serializeNode n t = (n.serializeInto (t.heap 0).bytes, t₁) := rfl
  have hser : (BTree.serializeNode n).Ensures t
      (fun data t' => t' = t₁ ∧ n.serializeInto (t.heap 0).bytes = .ok data) NodesFit := by
    cases hdata : n.serializeInto (t.heap 0).bytes with
    | error e => exact .of_error (hdata ▸ hrun) h₁
    | ok data => exact .of_ok (hdata ▸ hrun) ⟨rfl, rfl⟩
  refine hser.bind ?_
  rintro data _ ⟨rfl, hdata⟩
  have hpaired : n.Paired := by
    refine ⟨hn.1, ?_⟩
    by_contra hshort
    obtain ⟨e, he⟩ := BTreePage.serializeInto_short (Nat.not_le.mp hshort) (t.heap 0).bytes
    rw [hdata] at he
    cases he
  obtain ⟨data', hdata', hdec⟩ := BTreePage.decode_serializeInto hpaired hfit (t.heap 0).bytes
  rw [hdata] at hdata'
  cases hdata'
  cases hpage : t₁.bpm p with
  | none => exact .of_error (Shows.flush_none hpage data) h₁
  | some old =>
    refine .of_ok (Shows.flush_eq (by rw [hpage]; rfl) data) (h₁.write rfl rfl rfl fun m hm => ?_)
    rw [hdec] at hm
    cases hm
    rcases n with ⟨keys, flags, rm, next, rids | pids⟩
    · exact hfit
    · exact hfit

/-- An intact metadata page, read as a node, has no keys. -/
theorem keys_of_magic {data : Page} (hmagic : decodeUint32 (data.slice 0 4) = BTREE_INDEX) {n : BTreePage}
    (hn : BTreePage.decode data = .ok n) : n.keys = [] :=
  Shows.decode_metaPage ⟨hmagic, rfl, rfl, rfl⟩ hn

theorem keys_of_freshNodePage {isLeaf : Bool} {n : BTreePage}
    (hn : BTreePage.decode (freshNodePage isLeaf) = .ok n) : n.keys = [] := by
  have h := Shows.decode_freshNodePage isLeaf
  rw [hn, Except.toOption] at h
  cases isLeaf with
  | true =>
    cases h
    rfl
  | false => cases h

/-- The nodes of `t'` have no keys or were there in `t`; page 0 holds none with keys. -/
structure AddsPage (t t' : BTree Disk) : Prop extends toNodesFit : NodesFit t' where
  node : ∀ p n, t'.bpm.nodeAt p = some n → n.keys = [] ∨ t.bpm.nodeAt p = some n
  zero : ∀ n, t'.bpm.nodeAt 0 = some n → n.keys = []

/-- A new page. Its id may be 0, when the counter on disk wraps. -/
theorem newIndexPage_ensures (h : NodesFit t) (isLeaf : Bool) :
    (BTree.newIndexPage isLeaf).Ensures t (fun _ t' => AddsPage t t') NodesFit := by
  have hzoom : ∀ {x d}, newBtreeIndexPage isLeaf t.bpm = (x, d) →
      BTree.newIndexPage isLeaf t = (x, { t with bpm := d }) := by
    intro x d hrun
    simp only [BTree.newIndexPage, BTree.onBpm, Prog.zoom, PageStore.onDisk, hrun]
  cases hpage : t.bpm 0 with
  | none =>
    have hmiss : readPage 0 t.bpm = (.error .exit, t.bpm) := by simp [readPage, hpage]
    exact .of_error (hzoom (Prog.bind_error hmiss)) h
  | some page =>
    have hread := Shows.readPage_ok hpage
    by_cases hmagic : decodeUint32 (page.slice 0 4) = BTREE_INDEX
    · set id := (decodeUint16 (page.slice 4 2) + 1).toUInt32 with hid
      set data := page.blit 4 (encodeUint16 (decodeUint16 (page.slice 4 2) + 1)) with hdata
      have hrun : newBtreeIndexPage isLeaf t.bpm =
          (.ok id, (t.bpm.write 0 data).write id (freshNodePage isLeaf)) := by
        rw [newBtreeIndexPage, Prog.bind_ok hread, assert_bind hmagic]
        rfl
      have hkept : decodeUint32 (data.slice 0 4) = BTREE_INDEX := by
        rw [hdata, Block.slice_blit_disjoint _ (by simp)]
        exact hmagic
      -- page 0 is the metadata page, with the counter one higher, unless the new page took its place
      have hzero : ∀ n, (t.bpm.write 0 data).nodeAt 0 = some n → n.keys = [] := by
        intro n hn
        rw [Disk.nodeAt_write, if_pos rfl] at hn
        exact keys_of_magic hkept (eq_ok_of_toOption hn)
      have hnode : ∀ p n, ((t.bpm.write 0 data).write id (freshNodePage isLeaf)).nodeAt p = some n →
          n.keys = [] ∨ p ≠ 0 ∧ t.bpm.nodeAt p = some n := by
        intro p n hn
        rw [Disk.nodeAt_write] at hn
        split at hn
        · exact .inl (keys_of_freshNodePage (eq_ok_of_toOption hn))
        · by_cases hp : p = 0
          · subst hp
            exact .inl (hzero n hn)
          · rw [Disk.nodeAt_write, if_neg hp] at hn
            exact .inr ⟨hp, hn⟩
      refine .of_ok (hzoom hrun) ⟨⟨h.magicNum, fun p n hn => ?_, h.logged⟩, fun p n hn => ?_, fun n hn => ?_⟩
      · rcases hnode p n hn with hnil | ⟨-, hn⟩
        · exact BTreePage.fitsPage_of_nil hnil
        · exact h.pages p n hn
      · exact (hnode p n hn).imp_right And.right
      · rcases hnode 0 n hn with hnil | ⟨h0, -⟩
        · exact hnil
        · exact absurd rfl h0
    · have hfail : newBtreeIndexPage isLeaf t.bpm = (.error .assertion, t.bpm) := by
        rw [newBtreeIndexPage, Prog.bind_ok hread]
        simp only [assert, if_neg hmagic, Prog.fault_bind]
      exact .of_error (hzoom hfail) h

/-- A state with the pages and the log of a state whose nodes fit. -/
theorem NodesFit.congr (h : NodesFit t) {t' : BTree Disk} (hbpm : t'.bpm = t.bpm) (hmagic : t'.magicNum = t.magicNum)
    (hlog : t'.serialized = t.serialized) : NodesFit t' := by
  refine ⟨hmagic.trans h.magicNum, fun p n hn => h.pages p n (hbpm ▸ hn), fun n hn => h.logged n (hlog ▸ hn)⟩

theorem flushMeta_ensures (h : NodesFit t) : BTree.flushMeta.Ensures t (fun _ t' => NodesFit t') NodesFit := by
  set t₁ : BTree Disk := { t with heap := fun i => t.heap (i + 1) } with ht₁
  have h₁ : NodesFit t₁ := h.congr rfl rfl rfl
  have hrun : BTree.flushMeta t = BTree.flush BTREE_METADATA_PAGE_ID (t₁.metaPage (t.heap 0).bytes) t₁ := rfl
  cases hpage : t₁.bpm BTREE_METADATA_PAGE_ID with
  | none => exact .of_error (hrun.trans (Shows.flush_none hpage _)) h₁
  | some old =>
    refine .of_ok (hrun.trans (Shows.flush_eq (by rw [hpage]; rfl) _)) (h₁.write rfl rfl rfl fun n hn => ?_)
    exact BTreePage.fitsPage_of_nil (Shows.decode_metaPage (Shows.metaPage_metaPage t₁ _ h.magicNum) hn)

theorem newNode_ensures (h : NodesFit t) (b : Bool) :
    (BTree.newNode b).Ensures t (fun n t' => NodesFit t' ∧ t'.bpm = t.bpm ∧ n.isLeaf = b) NodesFit := by
  have hrun : BTree.newNode b t = (.ok (BTreePage.new b (t.heap 0)), { t with heap := fun i => t.heap (i + 1) }) := rfl
  exact .of_ok hrun ⟨h.congr rfl rfl rfl, rfl, BTreePage.new_isLeaf b _⟩

/-! ## Reading -/

theorem fetch_ensures (t : BTree Disk) (p : PageId) :
    (BTree.fetch p).Ensures t (fun r t' => t' = t ∧ r.1 = p) (· = t) := by
  cases hpage : t.bpm p with
  | none => exact .of_error (Shows.fetch_none hpage) rfl
  | some data => exact .of_ok (Shows.fetch_some hpage) ⟨rfl, rfl⟩

theorem fetchNode_ensures (t : BTree Disk) (p : PageId) :
    (BTree.fetchNode p).Ensures t (fun r t' => t' = t ∧ t.bpm.nodeAt r.1 = some r.2 ∧ r.1 = p) (· = t) := by
  refine ⟨fun r t' hrun => ?_, ?_⟩
  · obtain ⟨rfl, rfl, hn⟩ := Shows.fetchNode_inv hrun
    exact ⟨rfl, hn, rfl⟩
  · refine Prog.Ensures.bind (Q := fun _ t' => t' = t) (fetch_ensures t p) ?_ |>.2
    rintro r _ ⟨rfl, -⟩
    exact .lift_bind rfl fun _ _ => .pure rfl

theorem getBtreePage_ensures (t : BTree Disk) (p : PageId) :
    (BTree.getBtreePage p).Ensures t (fun n t' => t' = t ∧ t.bpm.nodeAt p = some n) (· = t) := by
  refine (fetchNode_ensures t p).bind ?_
  rintro ⟨q, n⟩ t' ⟨rfl, hn, rfl⟩
  exact .pure ⟨rfl, hn⟩

theorem getPrevBreadcrumbPid_ensures (t : BTree Disk) (top : Option Crumb) :
    (BTree.getPrevBreadcrumbPid top).Ensures t (fun p t' => t' = t ∧ p = top.elim 0 (·.1)) (· = t) := by
  cases top with
  | none => exact .pure ⟨rfl, rfl⟩
  | some c =>
    refine (fetch_ensures t c.1).bind ?_
    rintro r t' ⟨rfl, hr⟩
    exact .pure ⟨rfl, hr⟩

/-- The result of a search: the node of a page, and no change of the state. -/
def Searches (t : BTree Disk) (p : TreeM Disk (PageId × BTreePage × List Crumb)) : Prop :=
  p.Ensures t (fun r t' => t' = t ∧ t.bpm.nodeAt r.1 = some r.2.1) (· = t)

theorem findLeafScan_searches (key : BTreeKey) (n i : Nat) {curr : PageId} {temp : BTreePage} (crumbs : List Crumb)
    (h : t.bpm.nodeAt curr = some temp) : Searches t (BTree.findLeafScan key n i curr temp crumbs) := by
  induction n generalizing i curr temp crumbs with
  | zero => exact .fault rfl
  | succ n ih =>
    rw [BTree.findLeafScan]
    split
    · refine .lift_bind rfl fun prevKey _ => .lift_bind rfl fun currKey _ => ?_
      split
      · refine .lift_bind rfl fun children _ => .lift_bind rfl fun nextPtr _ => ?_
        refine (fetchNode_ensures t nextPtr).bind ?_
        rintro ⟨curr', temp'⟩ _ ⟨rfl, hn, -⟩
        exact ih _ _ hn
      · exact ih _ _ h
    · exact .pure ⟨rfl, h⟩

theorem findLeafLoop_searches (key : BTreeKey) (n : Nat) {curr : PageId} {temp : BTreePage} (crumbs : List Crumb)
    (h : t.bpm.nodeAt curr = some temp) : Searches t (BTree.findLeafLoop key n curr temp crumbs) := by
  induction n generalizing curr temp crumbs with
  | zero => exact .fault rfl
  | succ n ih =>
    rw [BTree.findLeafLoop]
    split
    · exact .pure ⟨rfl, h⟩
    · refine .lift_bind rfl fun firstKey _ => ?_
      split
      · refine .lift_bind rfl fun children _ => .lift_bind rfl fun nextPtr _ => ?_
        refine (fetchNode_ensures t nextPtr).bind ?_
        rintro ⟨curr', temp'⟩ _ ⟨rfl, hn, -⟩
        exact ih _ hn
      · refine (findLeafScan_searches key 65535 1 crumbs h).bind ?_
        rintro ⟨curr', temp', crumbs'⟩ _ ⟨rfl, -⟩
        refine (fetchNode_ensures _ temp'.rightmostPtr).bind ?_
        rintro ⟨curr'', temp''⟩ _ ⟨rfl, hn, -⟩
        exact ih _ hn

theorem findLeaf_searches (t : BTree Disk) (key : BTreeKey) : Searches t (BTree.findLeaf key) := by
  refine .get_bind ?_
  refine (fetchNode_ensures _ _).bind ?_
  rintro ⟨curr, temp⟩ _ ⟨rfl, hn, -⟩
  exact findLeafLoop_searches key _ [] hn

/-! ## Splitting -/

/-- `redistribute_kv` that returned left the two halves of the keys. -/
theorem redistributeKv_keys {b : Bool} {e n : BTreePage} {r : BTreePage × BTreePage} (he : e.isLeaf = b)
    (hrun : BTree.redistributeKv b e n = .ok r) : r.1.isLeaf = b ∧ r.2.isLeaf = b ∧
      r.1.keys = n.keys.drop (n.keys.length / 2 + if b then 0 else 1) ∧
      r.2.keys = n.keys.take (n.keys.length / 2) := by
  subst he
  rw [BTree.redistributeKv] at hrun
  obtain ⟨emptyKeys, hempty, h₁⟩ := except_bind_eq_ok hrun
  obtain ⟨fullKeys, hfull, h₂⟩ := except_bind_eq_ok h₁
  have hupper := vecSecondHalf_eq_ok hempty
  have hlower : fullKeys = n.keys.take (n.keys.length / 2) := vecFirstHalf_eq_ok hfull
  split at h₂
  · next hleaf =>
    obtain ⟨fullVals, -, h₃⟩ := except_bind_eq_ok h₂
    obtain ⟨emptyVals, -, h₄⟩ := except_bind_eq_ok h₃
    obtain ⟨keptVals, -, h₅⟩ := except_bind_eq_ok h₄
    cases h₅
    exact ⟨hleaf.symm, hleaf.symm, hupper, hlower⟩
  · next hinner =>
    have hinner := Bool.not_eq_true _ ▸ hinner
    obtain ⟨fullVals, -, h₃⟩ := except_bind_eq_ok h₂
    obtain ⟨emptyVals, -, h₄⟩ := except_bind_eq_ok h₃
    obtain ⟨keptVals, -, h₅⟩ := except_bind_eq_ok h₄
    obtain ⟨lastKept, -, h₆⟩ := except_bind_eq_ok h₅
    cases h₆
    exact ⟨hinner.symm, hinner.symm, hupper, hlower⟩

/-- `redistribute_kv` of a node whose halves fit. -/
theorem redistributeKv_fit {b : Bool} {e n : BTreePage} {r : BTreePage × BTreePage} (he : e.isLeaf = b)
    (hn : HalvesFit b n.keys) (hrun : BTree.redistributeKv b e n = .ok r) :
    KeysFit r.1.isLeaf r.1.keys ∧ KeysFit r.2.isLeaf r.2.keys := by
  obtain ⟨h₁, h₂, hupper, hlower⟩ := redistributeKv_keys he hrun
  rw [h₁, h₂, hupper, hlower]
  exact ⟨⟨fun k hk => hn.nonempty k (List.mem_of_mem_drop hk), hn.upper⟩,
    ⟨fun k hk => hn.nonempty k (List.mem_of_mem_take hk), hn.lower⟩⟩

theorem assert_ensures (h : NodesFit t) (c : Prop) [Decidable c] :
    (SomeDB.assert c : TreeM Disk Unit).Ensures t (fun _ t' => t' = t ∧ c) NodesFit := by
  rw [SomeDB.assert]
  split
  · next hc => exact .pure ⟨rfl, hc⟩
  · exact .fault h

theorem modify_ensures (h : NodesFit t) {f : BTree Disk → BTree Disk} (hbpm : (f t).bpm = t.bpm)
    (hmagic : (f t).magicNum = t.magicNum) (hlog : (f t).serialized = t.serialized) :
    (Prog.modify f : TreeM Disk Unit).Ensures t (fun _ t' => NodesFit t' ∧ t'.bpm = t.bpm) NodesFit :=
  .modify ⟨h.congr hbpm hmagic hlog, hbpm⟩

/-- The split of a root whose halves fit. The new root has one key. -/
theorem splitRootNode_ensures (h : NodesFit t) {b : Bool} {n : BTreePage} (hn : HalvesFit b n.keys) :
    (BTree.splitRootNode b n).Ensures t (fun n' t' => NodesFit t' ∧ KeysFit n'.isLeaf n'.keys) NodesFit := by
  rw [BTree.splitRootNode]
  refine .get_bind ?_
  refine .lift_bind h fun midKey hmid => ?_
  have hmidKey : 1 ≤ midKey.length := hn.nonempty midKey (List.mem_of_getElem? (getElem?_of_vecAt hmid))
  refine (newIndexPage_ensures h b).bind fun newNodeId t₁ h₁ => ?_
  refine (newIndexPage_ensures h₁.toNodesFit false).bind fun newRootId t₂ h₂ => ?_
  refine (newNode_ensures h₂.toNodesFit b).bind ?_
  rintro newNode t₃ ⟨h₃, -, hleaf⟩
  refine (newNode_ensures h₃ false).bind ?_
  rintro newRoot t₄ ⟨h₄, -, -⟩
  refine (modify_ensures h₄ rfl rfl rfl).bind ?_
  rintro _ t₅ ⟨h₅, -⟩
  refine .lift_bind h₅ fun r hr => ?_
  obtain ⟨hnew, hold⟩ := redistributeKv_fit hleaf hn hr
  refine (modify_ensures h₅ rfl rfl rfl).bind ?_
  rintro _ t₆ ⟨h₆, -⟩
  refine (assert_ensures h₆ _).bind ?_
  rintro _ _ ⟨rfl, -⟩
  refine (flushMeta_ensures h₆).bind fun _ t₇ h₇ => ?_
  refine (flushNode_ensures h₇ hnew newNodeId).bind fun _ t₈ h₈ => ?_
  refine (flushNode_ensures h₈ ⟨by simpa using hmidKey, nodeSize_singleton midKey⟩ newRootId).bind fun _ t₉ h₉ => ?_
  refine (flushNode_ensures (n := { r.2 with next := newNodeId }) h₉ hold _).bind fun _ t₁₀ h₁₀ => ?_
  exact .pure ⟨h₁₀, hold⟩

/-- The inner node in page `c`, if there is one, fits with the key `k` more. -/
def TakesKey (t : BTree Disk) (c : PageId) (k : BTreeKey) : Prop :=
  ∀ parent ∈ t.bpm.nodeAt c, nodeSize false (k :: parent.keys) ≤ 4096

instance (t : BTree Disk) (c : PageId) (k : BTreeKey) : Decidable (TakesKey t c k) :=
  inferInstanceAs (Decidable (∀ _ ∈ _, _))

/-- The parent takes the middle key of the node `n`. -/
def TakesMid (t : BTree Disk) (n : BTreePage) (top : Crumb) : Prop :=
  ∀ mid ∈ n.keys[n.keys.length / 2]?, TakesKey t top.1 mid

instance (t : BTree Disk) (n : BTreePage) (top : Crumb) : Decidable (TakesMid t n top) :=
  inferInstanceAs (Decidable (∀ _ ∈ _, _))

/-- The parent of a node that is split, with the middle key of the node. A new page may have taken its place. -/
theorem insertChild_fit {t' : BTree Disk} (h : AddsPage t t') {c : PageId} {n parent : BTreePage} {mid : BTreeKey}
    (hmid : 1 ≤ mid.length) (hroom : c ≠ 0 → TakesKey t c mid) (hn : t'.bpm.nodeAt c = some n) {pid : PageId}
    (hins : n.insertChild mid pid = .ok parent) : KeysFit parent.isLeaf parent.keys := by
  obtain ⟨hpaired, hcount, hlen⟩ := Disk.nodeAt_paired hn
  obtain ⟨cs, hcs, -⟩ := except_bind_eq_ok hins
  have hv := BTreePage.values_of_internalChildren hcs
  obtain ⟨i, -, hok⟩ := BTreePage.insertChild_ok hv hcount (by omega) mid pid
  cases hins.symm.trans hok
  refine ⟨fun k hk => ?_, ?_⟩
  · rcases mem_putAt.mp hk with rfl | hk
    · exact hmid
    · exact hpaired.1 k hk
  · show nodeSize false (putAt n.keys i mid) ≤ 4096
    rw [nodeSize_putAt]
    have hkeys : n.keys = [] ∨ c ≠ 0 ∧ t.bpm.nodeAt c = some n := by
      by_cases hc : c = 0
      · subst hc
        exact .inl (h.zero n hn)
      · exact (h.node c n hn).imp_right fun hn => ⟨hc, hn⟩
    rcases hkeys with hnil | ⟨hc, hn⟩
    · rw [hnil]
      exact nodeSize_singleton mid
    · exact hroom hc n hn

/-- The split of a node below a parent that takes its middle key. -/
theorem splitIntoParent_ensures (h : NodesFit t) {b : Bool} {n : BTreePage} (hn : HalvesFit b n.keys) (pid : PageId)
    {top : Option Crumb} (htop : ∀ c ∈ top, TakesMid t n c) :
    (BTree.splitIntoParent b n pid top).Ensures t (fun r t' => NodesFit t' ∧ KeysFit r.1.isLeaf r.1.keys)
      NodesFit := by
  rw [BTree.splitIntoParent]
  refine .lift_bind h fun midKey hmid => ?_
  have hmidKey := getElem?_of_vecAt hmid
  have hpos : 1 ≤ midKey.length := hn.nonempty midKey (List.mem_of_getElem? hmidKey)
  refine (newNode_ensures h b).bind ?_
  rintro newNode t₁ ⟨h₁, hbpm, hleaf⟩
  refine (newIndexPage_ensures h₁ b).bind fun newNodeId t₂ h₂ => ?_
  refine (modify_ensures h₂.toNodesFit rfl rfl rfl).bind ?_
  rintro _ t₃ ⟨h₃, hbpm₃⟩
  refine .lift_bind h₃ fun r hr => ?_
  obtain ⟨hnew, hold⟩ := redistributeKv_fit hleaf hn hr
  refine ((getPrevBreadcrumbPid_ensures t₃ top).mono (fun _ _ h => h) ?_).bind ?_
  · rintro _ rfl
    exact h₃
  rintro parentPid _ ⟨rfl, hparent⟩
  refine ((getBtreePage_ensures _ parentPid).mono (fun _ _ h => h) ?_).bind ?_
  · rintro _ rfl
    exact h₃
  rintro parent _ ⟨rfl, hnode⟩
  refine .lift_bind h₃ fun parent' hins => ?_
  have hroom : parentPid ≠ 0 → TakesKey t₁ parentPid midKey := by
    intro hne
    cases top with
    | none => exact absurd hparent hne
    | some c =>
      rw [TakesKey, hbpm, hparent]
      exact htop c rfl midKey hmidKey
  have hparent' := insertChild_fit h₂ hpos hroom (hbpm₃ ▸ hnode) hins
  refine .lift_bind h₃ fun lastKey _ => ?_
  refine (assert_ensures h₃ _).bind ?_
  rintro _ _ ⟨rfl, -⟩
  refine Prog.Ensures.bind (R := fun _ t' => NodesFit t') ?_ fun _ t₄ h₄ => ?_
  · split
    · exact flushNode_ensures (n := { parent' with rightmostPtr := newNodeId }) h₃ hparent' _
    · exact flushNode_ensures h₃ hparent' _
  refine (flushNode_ensures (n := { r.1 with next := r.2.next }) h₄ hnew _).bind fun _ t₅ h₅ => ?_
  refine (flushNode_ensures (n := { r.2 with next := newNodeId }) h₅ hold _).bind fun _ t₆ h₆ => ?_
  exact .pure ⟨h₆, hold⟩

/-- A read in a state whose nodes fit. -/
theorem NodesFit.read (h : NodesFit t) {α : Type} {p : TreeM Disk α} {Q : α → BTree Disk → Prop}
    (hp : p.Ensures t Q (· = t)) : p.Ensures t Q NodesFit :=
  hp.mono (fun _ _ hQ => hQ) fun _ ht => ht ▸ h

theorem splitRootPage_ensures (h : NodesFit t) : BTree.splitRootPage.Ensures t (fun _ t' => NodesFit t') NodesFit := by
  rw [BTree.splitRootPage]
  refine .get_bind ?_
  refine (h.read (getBtreePage_ensures _ _)).bind ?_
  rintro rootPage _ ⟨rfl, hn⟩
  refine (splitRootNode_ensures h (h.keysFit hn).inner.halves).bind ?_
  rintro n' t' ⟨h', -⟩
  exact .pure h'

/-- The room that the climb of `splitNonRootNode` needs: each parent takes the middle key of the node that is split
below it. -/
def RoomAbove (isLeaf : Bool) (n : BTreePage) (pid : PageId) : List Crumb → BTree Disk → Prop
  | [], _ => True
  | [top], t => TakesMid t n top
  | top :: above :: crumbs, t => TakesMid t n top ∧
    match BTree.splitIntoParent isLeaf n pid (some top) t with
    | (.ok (_, parent), t') => t'.maxSize.toNat < parent.keys.length →
      ∀ n' ∈ t'.bpm.nodeAt above.1, RoomAbove false n' above.1 crumbs t'
    | (.error _, _) => True

instance decidableRoomAbove (isLeaf : Bool) (n : BTreePage) (pid : PageId) :
    ∀ (crumbs : List Crumb) (t : BTree Disk), Decidable (RoomAbove isLeaf n pid crumbs t)
  | [], _ => isTrue trivial
  | [top], t => inferInstanceAs (Decidable (TakesMid t n top))
  | top :: above :: crumbs, t =>
    have : Decidable (match BTree.splitIntoParent isLeaf n pid (some top) t with
        | (.ok (_, parent), t') => t'.maxSize.toNat < parent.keys.length →
          ∀ n' ∈ t'.bpm.nodeAt above.1, RoomAbove false n' above.1 crumbs t'
        | (.error _, _) => True) :=
      match BTree.splitIntoParent isLeaf n pid (some top) t with
      | (.ok (_, parent), t') =>
        have (n' : BTreePage) := decidableRoomAbove false n' above.1 crumbs t'
        inferInstanceAs (Decidable (t'.maxSize.toNat < parent.keys.length → ∀ n' ∈ t'.bpm.nodeAt above.1, _))
      | (.error _, _) => isTrue trivial
    inferInstanceAs (Decidable (_ ∧ _))

theorem splitNonRootNode_ensures {t : BTree Disk} (h : NodesFit t) {b : Bool} {n : BTreePage} (hn : HalvesFit b n.keys)
    (pid : PageId) (crumbs : List Crumb) (hroom : RoomAbove b n pid crumbs t) :
    (BTree.splitNonRootNode b n pid crumbs).Ensures t (fun n' t' => NodesFit t' ∧ KeysFit n'.isLeaf n'.keys)
      NodesFit := by
  -- the end of the climb: the root is split when the parent was it
  have hend : ∀ {t₁ : BTree Disk} (r : BTreePage × BTreePage), NodesFit t₁ → KeysFit r.1.isLeaf r.1.keys →
      Prog.Ensures (do
        let t ← Prog.get
        if r.2.keys.length > t.maxSize.toNat then BTree.splitRootPage
        pure r.1) t₁ (fun n' t' => NodesFit t' ∧ KeysFit n'.isLeaf n'.keys) NodesFit := by
    intro t₁ r h₁ hr
    refine .get_bind ?_
    split
    · exact (splitRootPage_ensures h₁).bind fun _ _ h₂ => .pure ⟨h₂, hr⟩
    · exact .pure ⟨h₁, hr⟩
  match crumbs, hroom with
  | [], _ =>
    rw [BTree.splitNonRootNode]
    refine (splitIntoParent_ensures h hn pid (by simp)).bind ?_
    rintro r t₁ ⟨h₁, hr⟩
    exact hend r h₁ hr
  | [top], hroom =>
    rw [BTree.splitNonRootNode]
    refine (splitIntoParent_ensures h hn pid ?_).bind ?_
    · rintro _ ⟨⟩
      exact hroom
    rintro r t₁ ⟨h₁, hr⟩
    exact hend r h₁ hr
  | top :: above :: crumbs, hroom =>
    rw [BTree.splitNonRootNode]
    obtain ⟨htop, habove⟩ := hroom
    refine (splitIntoParent_ensures h hn pid ?_).ran.bind ?_
    · rintro _ ⟨⟩
      exact htop
    rintro r t₁ ⟨⟨h₁, hr⟩, hrun⟩
    rw [hrun] at habove
    refine .get_bind ?_
    split
    · next hover =>
      refine (h₁.read (getPrevBreadcrumbPid_ensures _ (some above))).bind ?_
      rintro topPid _ ⟨rfl, rfl⟩
      refine (h₁.read (getBtreePage_ensures _ _)).bind ?_
      rintro topNode _ ⟨rfl, htopNode⟩
      refine (splitNonRootNode_ensures h₁ (h₁.keysFit htopNode).inner.halves above.1 crumbs
        (habove hover topNode htopNode)).bind ?_
      rintro _ t₂ ⟨h₂, -⟩
      exact .pure ⟨h₂, hr⟩
    · exact .pure ⟨h₁, hr⟩

/-! ## Insertion -/

theorem createRoot_ensures (h : NodesFit t) : BTree.createRoot.Ensures t (fun _ t' => NodesFit t') NodesFit := by
  rw [BTree.createRoot]
  refine .get_bind ?_
  split
  · refine (newIndexPage_ensures h true).bind fun rootPid t₁ h₁ => ?_
    refine (modify_ensures (f := fun t => { t with rootPid }) h₁.toNodesFit rfl rfl rfl).bind ?_
    rintro _ t₂ ⟨h₂, -⟩
    refine (assert_ensures h₂ (rootPid ≠ BTREE_METADATA_PAGE_ID)).bind ?_
    rintro _ _ ⟨rfl, -⟩
    exact .modify (h₂.congr rfl rfl rfl)
  · exact .pure h

/-- The room for a leaf that has got its key: in its page, or in two pages and above it. -/
def RoomIn (t : BTree Disk) (leafPid : PageId) (leaf : BTreePage) (crumbs : List Crumb) : Prop :=
  if leaf.keys.length ≤ t.maxSize.toNat then nodeSize true leaf.keys ≤ 4096
  else nodeSize true (leaf.keys.take (leaf.keys.length / 2)) ≤ 4096 ∧
    nodeSize true (leaf.keys.drop (leaf.keys.length / 2)) ≤ 4096 ∧ RoomAbove true leaf leafPid crumbs t

instance (t : BTree Disk) (leafPid : PageId) (leaf : BTreePage) (crumbs : List Crumb) :
    Decidable (RoomIn t leafPid leaf crumbs) :=
  inferInstanceAs (Decidable (if leaf.keys.length ≤ t.maxSize.toNat then _ else _))

/-- The insertion finds the room that it needs. -/
def RoomFor (t : BTree Disk) (op : BTreeKey × RID) : Prop :=
  match BTree.findLeaf op.1 (BTree.createRoot t).2 with
  | (.ok (leafPid, leaf, crumbs), t₁) =>
    (leaf.keys.any fun leafKey => cmpKeys leafKey op.1 == 0) = false →
      ∀ leaf' ∈ (leaf.insertRecord op.1 op.2).toOption, RoomIn t₁ leafPid leaf' crumbs
  | (.error _, _) => True

instance (t : BTree Disk) (op : BTreeKey × RID) : Decidable (RoomFor t op) :=
  have : Decidable (match BTree.findLeaf op.1 (BTree.createRoot t).2 with
      | (.ok (leafPid, leaf, crumbs), t₁) =>
        (leaf.keys.any fun leafKey => cmpKeys leafKey op.1 == 0) = false →
          ∀ leaf' ∈ (leaf.insertRecord op.1 op.2).toOption, RoomIn t₁ leafPid leaf' crumbs
      | (.error _, _) => True) :=
    match BTree.findLeaf op.1 (BTree.createRoot t).2 with
    | (.ok (leafPid, leaf, crumbs), t₁) =>
      inferInstanceAs (Decidable ((leaf.keys.any fun leafKey => cmpKeys leafKey op.1 == 0) = false →
        ∀ leaf' ∈ (leaf.insertRecord op.1 op.2).toOption, RoomIn t₁ leafPid leaf' crumbs))
    | (.error _, _) => isTrue trivial
  this

theorem splitFullLeaf_ensures (h : NodesFit t) {leaf : BTreePage} (hleaf : leaf.isLeaf = true)
    (hkeys : ∀ k ∈ leaf.keys, 1 ≤ k.length) {leafPid : PageId} {crumbs : List Crumb}
    (hroom : RoomIn t leafPid leaf crumbs) : (BTree.splitFullLeaf leaf leafPid crumbs).Ensures t
      (fun n t' => NodesFit t' ∧ KeysFit n.isLeaf n.keys) NodesFit := by
  rw [RoomIn] at hroom
  rw [BTree.splitFullLeaf]
  refine .get_bind ?_
  split
  · next hfull =>
    rw [if_neg (Nat.not_le.mpr hfull)] at hroom
    obtain ⟨hlower, hupper, habove⟩ := hroom
    have hhalves : HalvesFit true leaf.keys := ⟨hkeys, hlower, hupper⟩
    refine (assert_ensures h (t.rootPid ≠ BTREE_METADATA_PAGE_ID)).bind ?_
    rintro _ _ ⟨rfl, -⟩
    split
    · exact splitRootNode_ensures h hhalves
    · exact splitNonRootNode_ensures h hhalves leafPid crumbs habove
  · next hle =>
    rw [if_pos (Nat.not_lt.mp hle)] at hroom
    exact .pure ⟨h, hkeys, hleaf ▸ hroom⟩

/-- One insertion. -/
theorem insert_ensures (h : NodesFit t) {op : BTreeKey × RID} (hkey : 1 ≤ op.1.length) (hroom : RoomFor t op) :
    (BTree.insertOp op).Ensures t (fun _ t' => NodesFit t') NodesFit := by
  obtain ⟨key, val⟩ := op
  rw [BTree.insertOp, BTree.insert]
  refine (createRoot_ensures h).ran.bind ?_
  rintro _ t₁ ⟨h₁, hroot⟩
  rw [RoomFor, hroot] at hroom
  refine (h₁.read (findLeaf_searches t₁ key)).ran.bind ?_
  rintro ⟨leafPid, leaf, crumbs⟩ _ ⟨⟨rfl, hnode⟩, hfind⟩
  simp only [hfind] at hroom
  refine (assert_ensures h₁ _).bind ?_
  rintro _ _ ⟨rfl, -⟩
  split
  · exact .pure h₁
  · next hnew =>
    refine .lift_bind h₁ fun leaf' hins => ?_
    obtain ⟨hpaired, hcount, (hlen : leaf.keys.length < 4097)⟩ := Disk.nodeAt_paired hnode
    obtain ⟨rids, hrids, -⟩ := except_bind_eq_ok hins
    obtain ⟨i, -, hok⟩ := BTreePage.insertRecord_ok (BTreePage.values_of_leafRecords hrids) hcount (by omega) key val
    have hleaf' := hroom (Bool.not_eq_true _ ▸ hnew) leaf' (by rw [hins]; rfl)
    cases hins.symm.trans hok
    have hkeys : ∀ k ∈ putAt leaf.keys i key, 1 ≤ k.length := by
      intro k hk
      rcases mem_putAt.mp hk with rfl | hk
      · exact hkey
      · exact hpaired.1 k hk
    refine (splitFullLeaf_ensures h₁ rfl hkeys hleaf').bind ?_
    rintro n t₂ ⟨h₂, hn⟩
    exact (flushNode_ensures h₂ hn leafPid).bind fun _ _ h₃ => .pure h₃

end Primitives

/-! ## Runs -/

theorem nodesFit_opened (m : UInt8) (junk : BTree Disk) : NodesFit (BTree.opened m junk) := by
  rw [Shows.opened_eq]
  refine ⟨rfl, fun p n hn => ?_, fun n hn => absurd hn List.not_mem_nil⟩
  obtain ⟨data, hd, hdec⟩ := Disk.nodeAt_eq_some hn
  obtain ⟨metaData, hd', hmeta⟩ := Shows.metaPage_createBtreeIndex m
  by_cases hp : p = 0
  · subst hp
    cases hd'.symm.trans hd
    exact BTreePage.fitsPage_of_nil (Shows.decode_metaPage hmeta hdec)
  · simp [createBtreeIndex, hp] at hd

/-- **Nodes fit in their pages.** In every run of insertions on a fresh index, with keys that are not empty and room
for each of them, every node that is serialized fits in a page, wherever the run ends. -/
theorem insert_run_fits (m : UInt8) (junk : BTree Disk) (ops : List (BTreeKey × RID))
    (hkeys : ∀ op ∈ ops, 1 ≤ op.1.length)
    (hops : Prog.Meets BTree.insertOp RoomFor ops (BTree.opened m junk)) :
    AllFit (Prog.runAll BTree.insertOp ops (BTree.opened m junk)).2 := by
  have hnonempty : Prog.Meets BTree.insertOp (fun _ op => 1 ≤ op.1.length) ops (BTree.opened m junk) :=
    Prog.meets_of_forall hkeys _
  have hboth := hnonempty.and hops
  have hrun := Prog.runAll_ensures (fun t op h hop => insert_ensures h hop.1 hop.2) (nodesFit_opened m junk) hboth
  exact hrun.final.logged

set_option maxRecDepth 4096 in
theorem insert_run_fits_split : AllFit
    (Prog.runAll BTree.insertOp (byteOps [67, 68, 69, 70, 71, 72, 73]) (BTree.opened 2 .zeroMemory)).2 :=
  insert_run_fits 2 .zeroMemory (byteOps [67, 68, 69, 70, 71, 72, 73]) (by decide) (by decide +kernel)

/-- A key of 255 bytes. -/
def longKey (b : UInt8) : BTreeKey := ⟨b :: List.replicate 254 0, by rw [List.length_cons, List.length_replicate]⟩

/-- Insertions of `n` keys of 255 bytes. -/
def longOps (n : Nat) : List (BTreeKey × RID) := (List.range n).map fun i => (longKey (UInt8.ofNat i), ⟨0, 0⟩)

set_option maxRecDepth 8192 in
/-- Sixteen keys of 255 bytes are far below 255 keys in a node, and need 26 + 16 * 268 bytes. -/
theorem insert_run_fits_fails :
    ¬ AllFit (Prog.runAll BTree.insertOp (longOps 16) (BTree.opened 255 .zeroMemory)).2 := by
  decide +kernel

end SomeDB
