import SomeDB.Index.Route
import SomeDB.Index.NodeSize

/-!
# The pages after a split

A split writes the two halves of a node and the node above them. `BTreePage.childPids` are the children of an
internal node from left to right. `splitRootNode_pages` says what the pages hold after a split of the root, and
that no other page changed.
-/

namespace SomeDB

open Lib

/-! ## Pages that stay as they are -/

section Frames

variable {t t' : BTree Disk} {n : BTreePage} {p : PageId} {b : Bool}

theorem readPage_state {d d' : Disk} {data : Page} (h : readPage p d = (.ok data, d')) : d = d' := by
  rw [readPage] at h
  split at h
  · cases h
    rfl
  · cases h

theorem newIndexPage_frame (h : BTree.newIndexPage b t = (.ok p, t')) {q : PageId} (h0 : q ≠ 0) (hp : q ≠ p) :
    t'.bpm q = t.bpm q := by
  rw [BTree.newIndexPage, BTree.onBpm] at h
  obtain ⟨d, hrun, rfl⟩ := Prog.zoom_eq_ok h
  change newBtreeIndexPage b t.bpm = _ at hrun
  rw [newBtreeIndexPage] at hrun
  obtain ⟨data, d₁, hread, hrun⟩ := Prog.bind_eq_ok hrun
  obtain ⟨_, d₂, hassert, hrun⟩ := Prog.bind_eq_ok hrun
  obtain ⟨-, rfl⟩ := assert_of_ok hassert
  obtain rfl := readPage_state hread
  cases hrun
  exact (Disk.write_ne _ _ hp).trans (Disk.write_ne _ _ h0)

theorem flush_frame {data : Page} {u : Unit} (h : BTree.flush p data t = (.ok u, t')) {q : PageId} (hq : q ≠ p) :
    t'.bpm q = t.bpm q := by
  rw [BTree.flush, BTree.onBpm] at h
  obtain ⟨d, hrun, rfl⟩ := Prog.zoom_eq_ok h
  change (readPage p >>= fun _ => writePage p data) t.bpm = _ at hrun
  obtain ⟨data, d₁, hread, hrun⟩ := Prog.bind_eq_ok hrun
  obtain rfl := readPage_state hread
  cases hrun
  exact Disk.write_ne _ _ hq

theorem flushNode_frame {u : Unit} (h : BTree.flushNode p n t = (.ok u, t')) {q : PageId} (hq : q ≠ p) :
    t'.bpm q = t.bpm q := by
  rw [BTree.flushNode] at h
  obtain ⟨data, t₁, hser, h⟩ := Prog.bind_eq_ok h
  rw [flush_frame h hq]
  rw [BTree.serializeNode] at hser
  obtain ⟨_, t₂, halloc, hser⟩ := Prog.bind_eq_ok hser
  cases halloc
  rw [Prog.modify_bind] at hser
  cases hnode : n.serializeInto (t.heap 0).bytes with
  | error e => rw [hnode] at hser; cases hser
  | ok data => rw [hnode] at hser; cases hser; rfl

theorem flushMeta_frame {u : Unit} (h : BTree.flushMeta t = (.ok u, t')) {q : PageId} (hq : q ≠ 0) :
    t'.bpm q = t.bpm q := by
  rw [BTree.flushMeta] at h
  obtain ⟨_, t₁, halloc, h⟩ := Prog.bind_eq_ok h
  cases halloc
  rw [Prog.get_bind] at h
  exact flush_frame h hq

theorem newNode_bpm (h : BTree.newNode b t = (.ok n, t')) : t'.bpm = t.bpm := by
  cases h
  rfl

/-- A split of the root writes the root, two new pages and the metadata page. -/
theorem splitRootNode_frame {r : BTreePage} (h : BTree.splitRootNode b n t = (.ok r, t')) :
    ∃ p₁ p₂ t₁ t₂, BTree.newIndexPage b t = (.ok p₁, t₁) ∧ BTree.newIndexPage false t₁ = (.ok p₂, t₂) ∧
      ∀ q, q ≠ 0 → q ≠ p₁ → q ≠ p₂ → q ≠ t.rootPid → t'.bpm q = t.bpm q := by
  rw [BTree.splitRootNode, Prog.get_bind] at h
  obtain ⟨mid, -, h⟩ := Prog.lift_bind_eq_ok h
  obtain ⟨p₁, t₁, hr₁, h⟩ := Prog.bind_eq_ok h
  obtain ⟨p₂, t₂, hr₂, h⟩ := Prog.bind_eq_ok h
  obtain ⟨_, t₃, hr₃, h⟩ := Prog.bind_eq_ok h
  obtain ⟨_, t₄, hr₄, h⟩ := Prog.bind_eq_ok h
  rw [Prog.modify_bind] at h
  obtain ⟨⟨_, _⟩, -, h⟩ := Prog.lift_bind_eq_ok h
  simp only [Prog.modify_bind] at h
  obtain ⟨_, t₅, hassert, h⟩ := Prog.bind_eq_ok h
  obtain ⟨-, rfl⟩ := assert_of_ok hassert
  obtain ⟨_, t₆, hr₆, h⟩ := Prog.bind_eq_ok h
  obtain ⟨_, t₇, hr₇, h⟩ := Prog.bind_eq_ok h
  obtain ⟨_, t₈, hr₈, h⟩ := Prog.bind_eq_ok h
  obtain ⟨_, t₉, hr₉, h⟩ := Prog.bind_eq_ok h
  cases h
  refine ⟨p₁, p₂, t₁, t₂, hr₁, hr₂, fun q h0 h₁ h₂ hroot => ?_⟩
  have hmeta := flushMeta_frame hr₆ h0
  simp only [newNode_bpm hr₄, newNode_bpm hr₃] at hmeta
  rw [flushNode_frame hr₉ hroot, flushNode_frame hr₈ h₂, flushNode_frame hr₇ h₁, hmeta,
    newIndexPage_frame hr₂ h0 h₂, newIndexPage_frame hr₁ h0 h₁]

end Frames

/-! ## Halves of a node -/

namespace BTreePage

/-- The children of an internal node from left to right. -/
def childPids (n : BTreePage) : List PageId :=
  match n.values with
  | .records _ => []
  | .children cs => cs ++ [n.rightmostPtr]

theorem fitsPage_trim {n : BTreePage} : n.trim.FitsPage ↔ n.FitsPage := by
  rcases n with ⟨keys, flags, rm, next, rids | pids⟩
  · exact Iff.rfl
  · exact Iff.rfl

/-- Whether the upper half fits does not depend on the node that it is put into. -/
theorem upperHalf_fits {n : BTreePage} (h : (n.upperHalf n).FitsPage) (e : BTreePage) :
    (n.upperHalf e).FitsPage := by
  rcases n with ⟨keys, flags, rm, next, rids | pids⟩
  · exact h
  · exact h

theorem lowerHalf_fits_iff {n : BTreePage} (hleaf : n.isLeaf = true) :
    n.lowerHalf.FitsPage ↔ nodeSize true (n.keys.take (n.keys.length / 2)) ≤ 4096 := by
  rw [fitsPage_iff, lowerHalf_isLeaf, hleaf, lowerHalf_keys]

theorem upperHalf_fits_iff {n : BTreePage} (hleaf : n.isLeaf = true) (e : BTreePage) :
    (n.upperHalf e).FitsPage ↔ nodeSize true (n.keys.drop (n.keys.length / 2)) ≤ 4096 := by
  rw [fitsPage_iff, upperHalf_isLeaf, hleaf, upperHalf_keys, if_pos hleaf]

/-- A key more takes the same room wherever it is put. -/
theorem addChild_fits_iff {n : BTreePage} {cs : List PageId} {mid : BTreeKey} (hv : n.values = .children cs) (i : Nat)
    (old new : PageId) : (n.addChild i mid old new).FitsPage ↔ nodeSize false (mid :: n.keys) ≤ 4096 := by
  have hinner : (n.addChild i mid old new).isLeaf = false := by simp [isLeaf, addChild, hv]
  rw [fitsPage_iff, hinner, addChild_keys hv, nodeSize_putAt]

/-- `left` and `right` are what a split of `n` at the key `mid` leaves. -/
structure SplitInto (n : BTreePage) (mid : BTreeKey) (left right : BTreePage) : Prop where
  leftKind : left.isLeaf = n.isLeaf
  rightKind : right.isLeaf = n.isLeaf
  leftKeys : left.keys ≠ []
  rightKeys : right.keys ≠ []
  records : n.isLeaf = true → left.records ++ right.records = n.records ∧ right.keys.head? = some mid
  keys : n.isLeaf = false → left.keys ++ [mid] ++ right.keys = n.keys
  children : n.isLeaf = false → left.childPids ++ right.childPids = n.childPids

theorem splitInto_halves {n : BTreePage} {mid : BTreeKey} (hv : n.valCount = n.keys.length)
    (hlen : 3 ≤ n.keys.length) (hmid : n.keys[n.keys.length / 2]? = some mid) (e : BTreePage) (next : PageId) :
    n.SplitInto mid { n.lowerHalf with next } (n.upperHalf e) := by
  obtain ⟨hlt, hget⟩ := List.getElem?_eq_some_iff.mp hmid
  have hdrop := List.drop_eq_getElem_cons hlt
  rw [hget] at hdrop
  have hlow : n.lowerHalf.keys ≠ [] := by
    rw [lowerHalf_keys]
    exact List.ne_nil_of_length_pos (by rw [List.length_take]; omega)
  rcases n with ⟨keys, flags, rm, nx, rids | pids⟩
  · simp only [valCount] at hv hlen hmid hlt hdrop
    refine ⟨rfl, rfl, hlow, ?_, fun _ => ⟨?_, ?_⟩, fun h => absurd h.symm Bool.false_ne_true,
      fun h => absurd h.symm Bool.false_ne_true⟩
    · exact List.ne_nil_of_length_pos (by simp only [upperHalf, List.length_drop]; omega)
    · simp only [BTreePage.records, lowerHalf, upperHalf]
      rw [← List.zip_append (by simp [hv]), List.take_append_drop, List.take_append_drop]
    · simp only [upperHalf, hdrop, List.head?_cons]
  · simp only [valCount] at hv hlen hmid hlt hdrop
    have hpid : keys.length / 2 < pids.length := by omega
    refine ⟨rfl, rfl, hlow, ?_, fun h => absurd h Bool.false_ne_true, fun _ => ?_, fun _ => ?_⟩
    · exact List.ne_nil_of_length_pos (by simp only [upperHalf, List.length_drop]; omega)
    · simp only [lowerHalf, upperHalf]
      rw [List.append_assoc, List.singleton_append, ← hdrop, List.take_append_drop]
    · have hmiddle : pids.getD (keys.length / 2) 0 = pids[keys.length / 2] := by
        rw [List.getD_eq_getElem?_getD, List.getElem?_eq_getElem hpid]
        rfl
      simp only [childPids, lowerHalf, upperHalf, hmiddle]
      rw [List.append_assoc, List.singleton_append, ← List.cons_append, ← List.drop_eq_getElem_cons hpid,
        ← List.append_assoc, List.take_append_drop]

end BTreePage

/-- Three nodes are stored, one after the other; they are what is serialized. -/
theorem Shows.flush_three {t : BTree Disk} {v : View} (h : Shows t v) (p₁ p₂ p₃ : PageId)
    (n₁ n₂ n₃ : BTreePage) {α : Type} (a : α)
    (h₁ : p₁ ≠ 0 ∧ v.live p₁ = true ∧ n₁.Paired ∧ n₁.FitsPage)
    (h₂ : p₂ ≠ 0 ∧ v.live p₂ = true ∧ n₂.Paired ∧ n₂.FitsPage)
    (h₃ : p₃ ≠ 0 ∧ v.live p₃ = true ∧ n₃.Paired ∧ n₃.FitsPage) :
    ∃ t', (do
        BTree.flushNode p₁ n₁
        BTree.flushNode p₂ n₂
        BTree.flushNode p₃ n₃
        pure a : TreeM Disk α) t = (.ok a, t') ∧
      Shows t' (((v.put p₁ n₁.trim).put p₂ n₂.trim).put p₃ n₃.trim) ∧
      t'.serialized = n₃ :: n₂ :: n₁ :: t.serialized := by
  obtain ⟨t₁, hr₁, hs₁⟩ := h.flushNode_ok h₁.1 h₁.2.1 h₁.2.2.1 h₁.2.2.2
  obtain ⟨t₂, hr₂, hs₂⟩ := hs₁.flushNode_ok h₂.1 h₂.2.1 h₂.2.2.1 h₂.2.2.2
  obtain ⟨t₃, hr₃, hs₃⟩ := hs₂.flushNode_ok h₃.1 h₃.2.1 h₃.2.2.1 h₃.2.2.2
  have hlog₁ := BTree.flushNode_serialized p₁ n₁ t
  have hlog₂ := BTree.flushNode_serialized p₂ n₂ t₁
  have hlog₃ := BTree.flushNode_serialized p₃ n₃ t₂
  rw [hr₁] at hlog₁
  rw [hr₂] at hlog₂
  rw [hr₃] at hlog₃
  refine ⟨t₃, ?_, hs₃, by rw [hlog₃, hlog₂, hlog₁]⟩
  rw [Prog.bind_ok hr₁, Prog.bind_ok hr₂, Prog.bind_ok hr₃]
  rfl

/-! ## A split of the root -/

section Root

variable {t : BTree Disk} {v : View} {n : BTreePage}

theorem newRoot_fits (mid : BTreeKey) (old new : PageId) (u : Uninit) : (View.newRoot mid old new u).FitsPage :=
  (fitsPage_iff _).mpr (nodeSize_singleton mid)

/-- A split of the root whose two new pages are unused: the new root has the middle key over the two halves of the
old one, and no page but these three and the metadata page changes. -/
theorem splitRootNode_pages (h : Shows t v) (hroot : v.rootPid ≠ 0) (hlive : v.live v.rootPid = true)
    (hp : n.Paired) (hv : n.valCount = n.keys.length) (hlen : 3 ≤ n.keys.length) (hlow : n.lowerHalf.FitsPage)
    (hupp : (n.upperHalf n).FitsPage) (hnew : v.newId ≠ 0) (hnew' : (v.addPage n.isLeaf).newId ≠ 0)
    (hfresh : v.live v.newId = false) (hfresh' : v.live (v.addPage n.isLeaf).newId = false) :
    ∃ r t' left right root mid, BTree.splitRootNode n.isLeaf n t = (.ok r, t') ∧
      t'.rootPid = (v.addPage n.isLeaf).newId ∧
      t'.bpm.nodeAt (v.addPage n.isLeaf).newId = some root ∧ root.keys = [mid] ∧
      root.childPids = [v.rootPid, v.newId] ∧
      t'.bpm.nodeAt v.rootPid = some left ∧ t'.bpm.nodeAt v.newId = some right ∧
      n.SplitInto mid left right ∧
      ∀ q, q ≠ 0 → q ≠ v.rootPid → q ≠ v.newId → q ≠ (v.addPage n.isLeaf).newId → t'.bpm q = t.bpm q := by
  have hmid : n.keys[n.keys.length / 2]? = some n.keys[n.keys.length / 2] :=
    List.getElem?_eq_getElem (by omega)
  generalize n.keys[n.keys.length / 2] = mid at hmid
  have hmem : mid ∈ n.keys := List.mem_of_getElem? hmid
  -- the three pages differ
  have hne : v.rootPid ≠ v.newId := by
    intro heq
    rw [heq, hfresh] at hlive
    cases hlive
  have hne' : v.rootPid ≠ (v.addPage n.isLeaf).newId := by
    intro heq
    rw [heq, hfresh'] at hlive
    cases hlive
  have hids : v.newId ≠ (v.addPage n.isLeaf).newId := by
    intro heq
    have hid := congrArg UInt32.toNat heq
    rw [View.newId_toNat_of_ne hnew, View.newId_toNat_of_ne hnew', View.addPage_diskCount,
      View.diskCount_succ_toNat hnew] at hid
    omega
  obtain ⟨w, low, t₁, htrim, hlowp, h₁, hrun⟩ := splitRootNode_start h hp hv hmid hnew hnew'
  obtain ⟨huppp, huppv⟩ := BTreePage.upperHalf_paired hp hv (BTreePage.new n.isLeaf (t.heap 0))
  have hlowf : ({ low with next := v.newId } : BTreePage).FitsPage :=
    (BTreePage.fitsPage_trim (n := low)).mp (htrim ▸ hlow)
  obtain ⟨t', hflush, h', -⟩ := h₁.flush_three v.newId (v.addPage n.isLeaf).newId v.rootPid
    (n.upperHalf (BTreePage.new n.isLeaf (t.heap 0))) (View.newRoot mid v.rootPid v.newId w)
    { low with next := v.newId } ({ low with next := v.newId } : BTreePage)
    ⟨hnew, View.addPage_live (b := false) (View.addPage_live_same ..), huppp, BTreePage.upperHalf_fits hupp _⟩
    ⟨hnew', View.addPage_live_same _ false, newRoot_paired (hp.1 mid hmem) .., newRoot_fits ..⟩
    ⟨hroot, View.addPage_live (b := false) (View.addPage_live hlive), hlowp, hlowf⟩
  have hrun' := hrun.trans hflush
  rw [BTreePage.trim_next low, htrim, BTreePage.trim_eq_self huppv,
    BTreePage.trim_eq_self (by simp [View.newRoot, BTreePage.valCount])] at h'
  refine ⟨_, t', _, _, View.newRoot mid v.rootPid v.newId w, mid, hrun', h'.rootPid, ?_, rfl, rfl, ?_, ?_,
    BTreePage.splitInto_halves hv hlen hmid (BTreePage.new n.isLeaf (t.heap 0)) v.newId, ?_⟩
  · rw [h'.node _ hnew', View.put_node_ne _ _ (Ne.symm hne'), View.put_node_same]
  · rw [h'.node _ hroot, View.put_node_same]
  · rw [h'.node _ hnew, View.put_node_ne _ _ (Ne.symm hne), View.put_node_ne _ _ hids, View.put_node_same]
  · intro q h0 hq hq₁ hq₂
    obtain ⟨p₁, p₂, t₂, t₃, hr₁, hr₂, hframe⟩ := splitRootNode_frame hrun'
    obtain rfl := newIndexPage_inv h hr₁
    obtain ⟨t₂', hr₁', h₂⟩ := h.newIndexPage_ok n.isLeaf hnew
    cases hr₁.symm.trans hr₁'
    obtain rfl := newIndexPage_inv h₂ hr₂
    exact hframe q h0 hq₁ hq₂ (h.rootPid ▸ hq)

end Root

/-- A leaf with three records. -/
def threeRecords (next : PageId) (byte : UInt8) : BTreePage where
  keys := [byteKey byte, byteKey (byte + 1), byteKey (byte + 2)]
  flags := 0
  rightmostPtr := 0
  next := next
  values := .records [⟨1, 0⟩, ⟨1, 1⟩, ⟨1, 2⟩]

theorem splitRootNode_pages_leaf :
    ∃ r t' left right, BTree.splitRootNode true (threeRecords 0 65) (indexOf 2 1 [threeRecords 0 65]) = (.ok r, t') ∧
      t'.rootPid = 3 ∧ t'.bpm.nodeAt 1 = some left ∧ t'.bpm.nodeAt 2 = some right ∧
      left.records ++ right.records = (threeRecords 0 65).records := by
  obtain ⟨r, t', left, right, root, mid, hrun, hroot, -, -, -, hleft, hright, hsplit, -⟩ :=
    splitRootNode_pages (n := threeRecords 0 65)
      (show Shows (indexOf 2 1 [threeRecords 0 65]) (viewOf 2 1 [threeRecords 0 65]) from indexOf_shows (by decide))
      (by decide) (by decide) ⟨by decide, by decide⟩ rfl (by decide) (by decide) (by decide) (by decide) (by decide)
      (by decide) (by decide)
  exact ⟨r, t', left, right, hrun, hroot, hleft, hright, (hsplit.records rfl).1⟩

/-! ## A split of a leaf below a parent -/

/-- A sequence that begins with `U` and one that begins, behind the same `X`, with an element that is not in `U`
differ. -/
theorem append_ne_of_head {α : Type} {X L U R : List α} (hL : L ≠ []) (hU : U ≠ []) (hdisj : ∀ a ∈ L, a ∉ U) :
    X ++ (L ++ U) ≠ U ++ (X ++ R) := by
  induction hn : X.length using Nat.strongRecOn generalizing X with
  | ind n ih =>
    intro heq
    obtain ⟨a, L, rfl⟩ := List.exists_cons_of_ne_nil hL
    have ha := hdisj a List.mem_cons_self
    rcases List.append_eq_append_iff.mp heq with ⟨c, hU', hrest⟩ | ⟨c, rfl, hrest⟩
    · -- the element is in `U`, or it is the first one of it
      cases c with
      | nil =>
        rw [List.append_nil] at hU'
        subst hU'
        obtain ⟨b, U, rfl⟩ := List.exists_cons_of_ne_nil hU
        injection hrest with hab _
        exact ha (hab ▸ List.mem_cons_self)
      | cons b c =>
        injection hrest with hab _
        refine ha ?_
        rw [hU', hab]
        simp
    · -- `X` begins with `U`: the rest of it is shorter
      have hpos := List.length_pos_of_ne_nil hU
      refine ih c.length ?_ rfl (X := c) ?_
      · rw [← hn, List.length_append]
        omega
      · rw [← hrest, List.append_assoc]

/-- The records of the node in a page. -/
def recordsAt (node : PageId → Option BTreePage) (q : PageId) : List (BTreeKey × RID) :=
  match node q with
  | some m => m.records
  | none => []

/-- The records of the nodes in the pages, in their order. -/
def recordsOf (node : PageId → Option BTreePage) (pids : List PageId) : List (BTreeKey × RID) :=
  pids.flatMap (recordsAt node)

/-- An internal node over leaves, in page `c`. -/
structure LeafParent (v : View) (c : PageId) (parent : BTreePage) (cs : List PageId) : Prop where
  pid : c ≠ 0
  node : v.node c = some parent
  values : parent.values = .children cs
  keys : parent.keys ≠ []
  ascending : parent.keys.Pairwise BTreeKey.Lt
  nodup : parent.childPids.Nodup
  leaves : ∀ q ∈ parent.childPids, q ≠ 0 ∧ ∃ m, v.node q = some m ∧ m.isLeaf = true

/-- `splitNonRootNode` of the leaf `n` in page `p` completes, serializes only nodes that fit in a page, and leaves a
parent in page `c` with one key more, over the same records; before, page `p` stands for the leaf `n` in memory. -/
def SplitKeeps (t : BTree Disk) (n : BTreePage) (p c : PageId) (parent : BTreePage) (crumbs : List Crumb) : Prop :=
  ∃ r t' parent', BTree.splitNonRootNode true n p crumbs { t with serialized := [] } = (.ok r, t') ∧ AllFit t' ∧
    t'.bpm.nodeAt c = some parent' ∧ parent'.keys.length = parent.keys.length + 1 ∧
    parent'.keys.Pairwise BTreeKey.Lt ∧
    recordsOf t'.bpm.nodeAt parent'.childPids =
      recordsOf (fun q => if q = p then some n else t.bpm.nodeAt q) parent.childPids

/-- The halves of the leaf `n`, and the parent with the key `mid`, fit in their pages. -/
def PiecesFit (n parent : BTreePage) (mid : BTreeKey) : Prop :=
  nodeSize true (n.keys.take (n.keys.length / 2)) ≤ 4096 ∧
    nodeSize true (n.keys.drop (n.keys.length / 2)) ≤ 4096 ∧ nodeSize false (mid :: parent.keys) ≤ 4096

section Parent

variable {t : BTree Disk} {v : View} {n parent : BTreePage} {p c : PageId} {cs : List PageId} {mid : BTreeKey}

/-- What the pages hold after a split of a leaf below a parent that has room, if the nodes fit. -/
theorem splitNonRootNode_run (h : ShowsFit t v) (hpar : LeafParent v c parent cs) (hp : p ∈ parent.childPids)
    (hn : n.Paired) (hv : n.valCount = n.keys.length) (hleaf : n.isLeaf = true)
    (hmid : n.keys[n.keys.length / 2]? = some mid) (hnew : v.newId ≠ 0) (hfresh : v.live v.newId = false)
    (hroom : parent.keys.length + 1 ≤ v.maxSize.toNat) (hfit : PiecesFit n parent mid) (idx : Int)
    (rest : List Crumb) :
    ∃ u i r t', PlaceOf mid parent.keys i ∧
      BTree.splitNonRootNode true n p ((c, idx) :: rest) t = (.ok r, t') ∧
      ShowsFit t' (v.splitLeaf p n c (parent.addChild i mid p v.newId) u) := by
  obtain ⟨hp0, m, hm, -⟩ := hpar.leaves p hp
  have hlive := h.live_of_node hp0 hm
  have hclive := h.live_of_node hpar.pid hpar.node
  have hmem : mid ∈ n.keys := List.mem_of_getElem? hmid
  obtain ⟨hparp, hparv, -⟩ := h.paired hpar.pid hpar.node
  obtain ⟨u, i, low, t₁, hi, htrim, hlowp, hnext, h₁, hlog₁, hrun⟩ :=
    splitIntoParent_start idx h.shows hp0 hn hv hleaf hmid hnew hfresh hpar.pid hpar.node hpar.values
  obtain ⟨huppp, huppv⟩ := BTreePage.upperHalf_paired hn hv (BTreePage.new true u)
  have huppf := (BTreePage.upperHalf_fits_iff hleaf (BTreePage.new true u)).mpr hfit.2.1
  have hlowf : ({ low with next := v.newId } : BTreePage).FitsPage := by
    refine (BTreePage.fitsPage_trim (n := low)).mp ?_
    rw [htrim]
    exact (BTreePage.lowerHalf_fits_iff hleaf).mpr hfit.1
  have hparf := (BTreePage.addChild_fits_iff hpar.values i p v.newId).mpr hfit.2.2
  have hparp' := BTreePage.addChild_paired hpar.values hparp hparv hi.1 (hn.1 mid hmem) p v.newId
  have hparv' := BTreePage.addChild_valCount hpar.values hparv hi.1 mid p v.newId
  obtain ⟨t', hflush, h', hlog⟩ := h₁.flush_three c v.newId p (parent.addChild i mid p v.newId)
    { n.upperHalf (BTreePage.new true u) with next := low.next } { low with next := v.newId }
    (({ low with next := v.newId } : BTreePage), parent.addChild i mid p v.newId)
    ⟨hpar.pid, View.addPage_live (b := true) hclive, hparp', hparf⟩
    ⟨hnew, View.addPage_live_same v true, huppp, huppf⟩
    ⟨hp0, View.addPage_live (b := true) hlive, hlowp, hlowf⟩
  rw [BTreePage.trim_next low, htrim, BTreePage.trim_next (n.upperHalf _), BTreePage.trim_eq_self huppv,
    BTreePage.trim_eq_self hparv', hnext] at h'
  refine ⟨u, i, _, t', hi, splitNonRootNode_of_room rest (hrun.trans hflush) ?_, h', ?_⟩
  · rw [h'.maxSize, BTreePage.addChild_keys hpar.values, putAt_length _ _ hi.1]
    exact hroom
  · rw [AllFit, hlog, hlog₁]
    simp only [List.forall_mem_cons]
    exact ⟨hlowf, huppf, hparf, h.logged⟩

/-- A split that serializes only nodes that fit: the halves and the parent do. -/
theorem piecesFit_of_split (h : Shows t v) (hpar : LeafParent v c parent cs) (hp : p ∈ parent.childPids)
    (hn : n.Paired) (hv : n.valCount = n.keys.length) (hleaf : n.isLeaf = true)
    (hmid : n.keys[n.keys.length / 2]? = some mid) (hnew : v.newId ≠ 0) (hfresh : v.live v.newId = false)
    {idx : Int} {rest : List Crumb} (hfit : AllFit (BTree.splitNonRootNode true n p ((c, idx) :: rest) t).2) :
    PiecesFit n parent mid := by
  obtain ⟨hp0, m, hm, -⟩ := hpar.leaves p hp
  have hclive := h.live_of_node hpar.pid hpar.node
  have hmem : mid ∈ n.keys := List.mem_of_getElem? hmid
  obtain ⟨hparp, hparv, -⟩ := h.paired hpar.pid hpar.node
  obtain ⟨u, i, low, t₁, hi, htrim, hlowp, hnext, h₁, -, hrun⟩ :=
    splitIntoParent_start idx h hp0 hn hv hleaf hmid hnew hfresh hpar.pid hpar.node hpar.values
  obtain ⟨huppp, -⟩ := BTreePage.upperHalf_paired hn hv (BTreePage.new true u)
  have hparp' := BTreePage.addChild_paired hpar.values hparp hparv hi.1 (hn.1 mid hmem) p v.newId
  have hfit₁ := hfit.splitIntoParent
  rw [hrun] at hfit₁
  -- each node is serialized on its own: the parent, the upper half, the lower half
  have hparf := hfit₁.head (.bind (.flushNode _ _) fun _ => .bind (.flushNode _ _) fun _ => .pure _)
  obtain ⟨t₂, -, hfit₂, h₂⟩ := h₁.flushNode_bind hpar.pid (View.addPage_live (b := true) hclive) hparp' hfit₁
    (.bind (.flushNode _ _) fun _ => .bind (.flushNode _ _) fun _ => .pure _)
  have huppf := hfit₂.head (.bind (.flushNode _ _) fun _ => .pure _)
  obtain ⟨t₃, -, hfit₃, -⟩ := h₂.flushNode_bind (n := { n.upperHalf (BTreePage.new true u) with next := low.next })
    hnew (View.addPage_live_same v true) huppp hfit₂
    (.bind (.flushNode _ _) fun _ => .pure _)
  have hlowf : ({ low with next := v.newId } : BTreePage).FitsPage := by
    refine AllFit.head ?_ hfit₃
    exact .pure _
  have hlowf : n.lowerHalf.FitsPage := htrim ▸ (BTreePage.fitsPage_trim (n := low)).mpr hlowf
  exact ⟨(BTreePage.lowerHalf_fits_iff hleaf).mp hlowf, (BTreePage.upperHalf_fits_iff hleaf _).mp huppf,
    (BTreePage.addChild_fits_iff hpar.values i p v.newId).mp hparf⟩

end Parent

/-! ## Where the new half is found -/

theorem recordsOf_congr {node node' : PageId → Option BTreePage} {pids : List PageId}
    (h : ∀ q ∈ pids, node q = node' q) : recordsOf node pids = recordsOf node' pids := by
  refine List.flatMap_congr fun q hq => ?_
  rw [recordsAt, recordsAt, h q hq]

theorem recordsOf_append (node : PageId → Option BTreePage) (ps qs : List PageId) :
    recordsOf node (ps ++ qs) = recordsOf node ps ++ recordsOf node qs := List.flatMap_append

@[simp] theorem recordsOf_nil (node : PageId → Option BTreePage) : recordsOf node [] = [] := rfl

theorem recordsOf_cons (node : PageId → Option BTreePage) (q : PageId) (qs : List PageId) :
    recordsOf node (q :: qs) = recordsAt node q ++ recordsOf node qs := List.flatMap_cons

/-- A key that was put into ascending keys and is the last one is above the others. -/
theorem putAt_last {ks : List BTreeKey} {i : Nat} {x : BTreeKey} (hi : i ≤ ks.length)
    (hasc : (putAt ks i x).Pairwise BTreeKey.Lt) (hlast : (putAt ks i x).getLast? = some x) :
    i = ks.length ∧ ∀ k ∈ ks, BTreeKey.Lt k x := by
  have hend : i = ks.length := by
    by_contra hne
    have hdrop : ks.drop i ≠ [] := List.ne_nil_of_length_pos (by rw [List.length_drop]; omega)
    have hmem : x ∈ ks.drop i := by
      rw [putAt, List.getLast?_append_of_ne_nil _ (by simp), List.getLast?_cons,
        List.getLast?_eq_getLast_of_ne_nil hdrop] at hlast
      have heq := Option.some.inj hlast
      simp only [Option.getD_some] at heq
      exact heq ▸ List.getLast_mem hdrop
    have hcons := (List.pairwise_append.mp hasc).2.1
    exact BTreeKey.lt_irrefl x (List.rel_of_pairwise_cons hcons hmem)
  refine ⟨hend, fun k hk => ?_⟩
  rw [hend, putAt_end] at hasc
  exact (List.pairwise_append.mp hasc).2.2 k hk x (List.mem_singleton.mpr rfl)

/-- A key above the last one of ascending keys is put in behind them. -/
theorem PlaceOf.end_of_last {ks : List BTreeKey} {i : Nat} {x k : BTreeKey} (hi : PlaceOf x ks i)
    (hasc : ks.Pairwise BTreeKey.Lt) (hlast : ks.getLast? = some k) (hlt : BTreeKey.Lt k x) : i = ks.length := by
  by_contra hne
  have hlen := hi.1
  have hget : ks[i]? = some ks[i] := List.getElem?_eq_getElem (by omega)
  have hnot : ¬ BTreeKey.Lt ks[i] x := BTreeKey.cmpKeys_nonpos.mp (hi.2.2.1 _ hget)
  rw [List.getLast?_eq_getElem?] at hlast
  obtain ⟨hltlen, rfl⟩ := List.getElem?_eq_some_iff.mp hlast
  rcases Nat.eq_or_lt_of_le (show i ≤ ks.length - 1 by omega) with heq | hlt'
  · simp only [heq] at hnot
    exact hnot hlt
  · exact hnot (BTreeKey.lt_trans (List.pairwise_iff_getElem.mp hasc _ _ _ _ hlt') hlt)

namespace BTreePage

/-- The records of the halves of a leaf. -/
theorem leaf_halves {n : BTreePage} (hleaf : n.isLeaf = true) (hv : n.valCount = n.keys.length)
    (hlen : 2 ≤ n.keys.length) (hasc : n.keys.Pairwise BTreeKey.Lt) (e : BTreePage) :
    n.lowerHalf.records ++ (n.upperHalf e).records = n.records ∧ n.lowerHalf.records ≠ [] ∧
      (n.upperHalf e).records ≠ [] ∧ ∀ a ∈ n.lowerHalf.records, a ∉ (n.upperHalf e).records := by
  rcases n with ⟨keys, flags, rm, next, rids | pids⟩
  · simp only [valCount] at hv hlen
    have happ : (keys.take (keys.length / 2)).zip (rids.take (keys.length / 2)) ++
        (keys.drop (keys.length / 2)).zip (rids.drop (keys.length / 2)) = keys.zip rids := by
      rw [← List.zip_append (by simp [hv]), List.take_append_drop, List.take_append_drop]
    refine ⟨happ, ?_, ?_, ?_⟩
    · refine List.ne_nil_of_length_pos ?_
      simp only [BTreePage.records, lowerHalf, List.length_zip, List.length_take, hv]
      omega
    · refine List.ne_nil_of_length_pos ?_
      simp only [BTreePage.records, upperHalf, List.length_zip, List.length_drop, hv]
      omega
    · rintro ⟨k, r⟩ hlow hupp
      have hk₁ := (List.of_mem_zip hlow).1
      have hk₂ := (List.of_mem_zip hupp).1
      rw [← List.take_append_drop (keys.length / 2) keys] at hasc
      exact BTreeKey.lt_irrefl k ((List.pairwise_append.mp hasc).2.2 k hk₁ k hk₂)
  · cases hleaf

theorem childPids_addChild {n : BTreePage} {cs : List PageId} (hv : n.values = .children cs) (i : Nat)
    (mid : BTreeKey) (old new : PageId) :
    (n.addChild i mid old new).childPids =
      putAt cs i old ++ [if (putAt n.keys i mid).getLast? = some mid then new else n.rightmostPtr] := by
  simp [childPids, addChild, hv]

theorem childPids_addChild_end {n : BTreePage} {cs : List PageId} {i : Nat} (hv : n.values = .children cs)
    (hcs : cs.length = n.keys.length) (hend : i = n.keys.length) (mid : BTreeKey) (old new : PageId) :
    (n.addChild i mid old new).childPids = cs ++ [old, new] := by
  have hlast : (putAt n.keys i mid).getLast? = some mid := by
    rw [hend, putAt_end, List.getLast?_concat]
  rw [childPids_addChild hv, if_pos hlast, hend, ← hcs, putAt_end]
  simp

end BTreePage

section Found

variable {t t' : BTree Disk} {v : View} {n parent : BTreePage} {p c : PageId} {cs : List PageId}
  {mid : BTreeKey} {i : Nat} {u : Uninit}

/-- What the old pages hold after the split. -/
theorem LeafParent.node_splitLeaf (h : Shows t v) (hpar : LeafParent v c parent cs)
    (hfresh : v.live v.newId = false) {q : PageId} (hq : q ∈ parent.childPids) (parent' : BTreePage) :
    (v.splitLeaf p n c parent' u).node q =
      if q = p then some { n.lowerHalf with next := v.newId } else v.node q := by
  obtain ⟨hq0, m, hm, hmleaf⟩ := hpar.leaves q hq
  have hqc : q ≠ c := by
    rintro rfl
    cases hpar.node.symm.trans hm
    simp [BTreePage.isLeaf, hpar.values] at hmleaf
  have hqnew : q ≠ v.newId := by
    rintro rfl
    have hlive := h.live_of_node hq0 hm
    rw [hfresh] at hlive
    cases hlive
  by_cases hqp : q = p
  · rw [if_pos hqp, hqp]
    exact View.put_node_same ..
  · rw [if_neg hqp]
    simp only [View.splitLeaf]
    rw [View.put_node_ne _ _ hqp, View.put_node_ne _ _ hqnew, View.put_node_ne _ _ hqc]
    exact View.addPage_node_ne v true hqnew

/-- Before the split: page `p` stands for both halves. -/
theorem LeafParent.records_before (h : Shows t v) (hpar : LeafParent v c parent cs)
    (hfresh : v.live v.newId = false) {A B : List PageId} (hsplit : parent.childPids = A ++ p :: B)
    (parent' : BTreePage) :
    recordsOf (fun q => if q = p then some n else t.bpm.nodeAt q) parent.childPids =
      recordsOf (v.splitLeaf p n c parent' u).node A ++ (n.records ++
        recordsOf (v.splitLeaf p n c parent' u).node B) := by
  have hnodup := hpar.nodup
  rw [hsplit] at hnodup
  have hother : ∀ q ∈ parent.childPids, q ≠ p →
      (if q = p then some n else t.bpm.nodeAt q) = (v.splitLeaf p n c parent' u).node q := by
    intro q hq hqp
    rw [hpar.node_splitLeaf h hfresh hq, if_neg hqp, if_neg hqp, h.node q (hpar.leaves q hq).1]
  have hA : ∀ q ∈ A, q ≠ p := fun q hq => (List.nodup_append.mp hnodup).2.2 q hq p List.mem_cons_self
  have hB : ∀ q ∈ B, q ≠ p := by
    rintro q hq rfl
    exact (List.nodup_cons.mp (List.nodup_append.mp hnodup).2.1).1 hq
  rw [hsplit, recordsOf_append, recordsOf_cons,
    recordsOf_congr fun q hq => hother q (by simp [hsplit, hq]) (hA q hq),
    recordsOf_congr fun q hq => hother q (by simp [hsplit, hq]) (hB q hq)]
  simp [recordsAt]

/-- After the split, page by page. -/
theorem LeafParent.records_after (h' : Shows t' (v.splitLeaf p n c (parent.addChild i mid p v.newId) u))
    (hpar : LeafParent v c parent cs) (hp : p ∈ parent.childPids) (hnew : v.newId ≠ 0) :
    recordsOf t'.bpm.nodeAt (parent.addChild i mid p v.newId).childPids =
      recordsOf (v.splitLeaf p n c (parent.addChild i mid p v.newId) u).node
        (parent.addChild i mid p v.newId).childPids := by
  refine recordsOf_congr fun q hq => h'.node q ?_
  have hchild : ∀ q ∈ parent.childPids, q ≠ 0 := fun q hq => (hpar.leaves q hq).1
  have hpids : parent.childPids = cs ++ [parent.rightmostPtr] := by simp [BTreePage.childPids, hpar.values]
  rw [BTreePage.childPids_addChild hpar.values, List.mem_append, mem_putAt, List.mem_singleton] at hq
  rcases hq with (rfl | hq) | rfl
  · exact hchild q hp
  · exact hchild q (by rw [hpids]; exact List.mem_append_left _ hq)
  · split
    · exact hnew
    · exact hchild _ (by simp [hpids])

/-- The old page and the new one hold the halves. -/
theorem recordsAt_halves (hne : v.newId ≠ p) (parent' : BTreePage) :
    recordsAt (v.splitLeaf p n c parent' u).node p = n.lowerHalf.records ∧
      recordsAt (v.splitLeaf p n c parent' u).node v.newId = (n.upperHalf (BTreePage.new true u)).records := by
  have hold : (v.splitLeaf p n c parent' u).node p = some { n.lowerHalf with next := v.newId } :=
    View.put_node_same ..
  have hupper : (v.splitLeaf p n c parent' u).node v.newId =
      some { n.upperHalf (BTreePage.new true u) with next := n.next } :=
    (View.put_node_ne _ _ hne).trans (View.put_node_same ..)
  rw [recordsAt, recordsAt, hold, hupper]
  exact ⟨rfl, rfl⟩

/-- The last child: its halves are found one behind the other if the middle key comes last in the parent. -/
theorem LeafParent.records_last (h : Shows t v) (hpar : LeafParent v c parent cs)
    (hfresh : v.live v.newId = false) (hleaf : n.isLeaf = true) (hv : n.valCount = n.keys.length)
    (hlen : 2 ≤ n.keys.length) (hasc : n.keys.Pairwise BTreeKey.Lt) (hlast : p = parent.rightmostPtr)
    (hne : v.newId ≠ p) (hcs : cs.length = parent.keys.length) (hend : i = parent.keys.length) :
    recordsOf (v.splitLeaf p n c (parent.addChild i mid p v.newId) u).node
        (parent.addChild i mid p v.newId).childPids =
      recordsOf (fun q => if q = p then some n else t.bpm.nodeAt q) parent.childPids := by
  have hpids : parent.childPids = cs ++ p :: [] := by simp [BTreePage.childPids, hpar.values, hlast]
  obtain ⟨hlow, hupp⟩ := recordsAt_halves (n := n) (u := u) (c := c) hne (parent.addChild i mid p v.newId)
  have hhalves := (BTreePage.leaf_halves hleaf hv hlen hasc (BTreePage.new true u)).1
  have hafter := BTreePage.childPids_addChild_end hpar.values hcs hend mid p v.newId
  rw [hpar.records_before (u := u) h hfresh hpids (parent.addChild i mid p v.newId), hafter, recordsOf_append,
    recordsOf_cons, recordsOf_cons, hlow, hupp, ← hhalves]
  simp [recordsOf]

/-- If the middle key comes last, the child that was split is the last one. -/
theorem LeafParent.last_of_records (h : Shows t v) (hpar : LeafParent v c parent cs)
    (hfresh : v.live v.newId = false) (hleaf : n.isLeaf = true) (hv : n.valCount = n.keys.length)
    (hlen : 2 ≤ n.keys.length) (hasc : n.keys.Pairwise BTreeKey.Lt) (hp : p ∈ parent.childPids)
    (hne : v.newId ≠ p) (hcs : cs.length = parent.keys.length) (hend : i = parent.keys.length)
    (heq : recordsOf (v.splitLeaf p n c (parent.addChild i mid p v.newId) u).node
        (parent.addChild i mid p v.newId).childPids =
      recordsOf (fun q => if q = p then some n else t.bpm.nodeAt q) parent.childPids) :
    p = parent.rightmostPtr := by
  have hpids : parent.childPids = cs ++ [parent.rightmostPtr] := by simp [BTreePage.childPids, hpar.values]
  rw [hpids, List.mem_append, List.mem_singleton] at hp
  refine hp.resolve_left fun hmem => ?_
  obtain ⟨A, B, rfl⟩ := List.append_of_mem hmem
  obtain ⟨hlow, hupp⟩ := recordsAt_halves (n := n) (u := u) (c := c) hne (parent.addChild i mid p v.newId)
  obtain ⟨hhalves, hL, hU, hdisj⟩ := BTreePage.leaf_halves hleaf hv hlen hasc (BTreePage.new true u)
  have hafter := BTreePage.childPids_addChild_end hpar.values hcs hend mid p v.newId
  have hsplit : parent.childPids = A ++ p :: (B ++ [parent.rightmostPtr]) := by rw [hpids]; simp
  rw [hpar.records_before (u := u) h hfresh hsplit (parent.addChild i mid p v.newId), hafter] at heq
  simp only [recordsOf_append, recordsOf_cons, recordsOf_nil, hlow, hupp, ← hhalves, List.append_assoc,
    List.append_nil] at heq
  -- behind the lower half one side goes on with the next child and the other one with the upper half
  exact append_ne_of_head hL hU hdisj (List.append_cancel_left (List.append_cancel_left heq))

/-- If the middle key does not come last, the lower half is found twice and the upper half is not. -/
theorem LeafParent.lastKey_of_records (h : Shows t v) (hpar : LeafParent v c parent cs)
    (hfresh : v.live v.newId = false) (hleaf : n.isLeaf = true) (hv : n.valCount = n.keys.length)
    (hlen : 2 ≤ n.keys.length) (hasc : n.keys.Pairwise BTreeKey.Lt) (hp : p ∈ parent.childPids)
    (hne : v.newId ≠ p)
    (heq : recordsOf (v.splitLeaf p n c (parent.addChild i mid p v.newId) u).node
        (parent.addChild i mid p v.newId).childPids =
      recordsOf (fun q => if q = p then some n else t.bpm.nodeAt q) parent.childPids) :
    (putAt parent.keys i mid).getLast? = some mid := by
  by_contra hlastKey
  obtain ⟨hlow, -⟩ := recordsAt_halves (n := n) (u := u) (c := c) hne (parent.addChild i mid p v.newId)
  obtain ⟨hhalves, hL, -, hdisj⟩ := BTreePage.leaf_halves hleaf hv hlen hasc (BTreePage.new true u)
  obtain ⟨A, B, hsplit⟩ := List.append_of_mem hp
  have hpids : parent.childPids = cs ++ [parent.rightmostPtr] := by simp [BTreePage.childPids, hpar.values]
  have hafter : ((parent.addChild i mid p v.newId).childPids).Perm (p :: (A ++ p :: B)) := by
    rw [BTreePage.childPids_addChild hpar.values, if_neg hlastKey, ← hsplit, hpids, putAt]
    have hput : (cs.take i ++ p :: cs.drop i).Perm (p :: cs) := by
      have hmid : (cs.take i ++ p :: cs.drop i).Perm (p :: (cs.take i ++ cs.drop i)) := List.perm_middle
      rwa [List.take_append_drop] at hmid
    exact hput.append_right _
  have hperm := hafter.flatMap_right
    (recordsAt (v.splitLeaf p n c (parent.addChild i mid p v.newId) u).node)
  change (recordsOf _ _).Perm (recordsOf _ _) at hperm
  rw [heq, hpar.records_before (u := u) h hfresh hsplit (parent.addChild i mid p v.newId)] at hperm
  simp only [recordsOf_append, recordsOf_cons, hlow, ← hhalves] at hperm
  -- a record of the lower half is found twice on one side and once on the other
  obtain ⟨a, L, hL⟩ := List.exists_cons_of_ne_nil hL
  have hcount := hperm.count_eq a
  have hnot := List.count_eq_zero_of_not_mem (hdisj a (hL ▸ List.mem_cons_self))
  have hpos : 0 < n.lowerHalf.records.count a := List.count_pos_iff.mpr (hL ▸ List.mem_cons_self)
  simp only [List.count_append, hnot] at hcount
  omega

end Found

/-- The leaf `n` of page `p` has overflowed below the parent in page `c`, which has room for the key `mid`, and the
next page id is unused. -/
structure LeafOverflow (t : BTree Disk) (v : View) (n parent : BTreePage) (p c : PageId) (cs : List PageId)
    (mid : BTreeKey) : Prop where
  shows : Shows t v
  above : LeafParent v c parent cs
  child : p ∈ parent.childPids
  paired : n.Paired
  count : n.valCount = n.keys.length
  leaf : n.isLeaf = true
  two : 2 ≤ n.keys.length
  ascending : n.keys.Pairwise BTreeKey.Lt
  middle : n.keys[n.keys.length / 2]? = some mid
  newId : v.newId ≠ 0
  fresh : v.live v.newId = false
  room : parent.keys.length + 1 ≤ v.maxSize.toNat

namespace LeafOverflow

variable {t : BTree Disk} {v : View} {n parent : BTreePage} {p c : PageId} {cs : List PageId} {mid : BTreeKey}

theorem newId_ne (h : LeafOverflow t v n parent p c cs mid) : v.newId ≠ p ∧ v.newId ≠ c := by
  obtain ⟨hp0, m, hm, -⟩ := h.above.leaves p h.child
  constructor
  · rintro heq
    have hlive := h.shows.live_of_node hp0 hm
    rw [← heq, h.fresh] at hlive
    cases hlive
  · rintro heq
    have hlive := h.shows.live_of_node h.above.pid h.above.node
    rw [← heq, h.fresh] at hlive
    cases hlive

theorem pid_ne (h : LeafOverflow t v n parent p c cs mid) : p ≠ c := by
  rintro rfl
  obtain ⟨-, m, hm, hmleaf⟩ := h.above.leaves p h.child
  cases h.above.node.symm.trans hm
  simp [BTreePage.isLeaf, h.above.values] at hmleaf

theorem children_length (h : LeafOverflow t v n parent p c cs mid) : cs.length = parent.keys.length :=
  (BTreePage.valCount_children h.above.values).symm.trans (h.shows.paired h.above.pid h.above.node).2.1

/-- If the nodes fit, the split completes; what the parent's page and the pages of its children hold. -/
theorem run (h : LeafOverflow t v n parent p c cs mid) (hfit : PiecesFit n parent mid) (idx : Int)
    (rest : List Crumb) :
    ∃ u i r t', PlaceOf mid parent.keys i ∧
      BTree.splitNonRootNode true n p ((c, idx) :: rest) { t with serialized := [] } = (.ok r, t') ∧ AllFit t' ∧
      t'.bpm.nodeAt c = some (parent.addChild i mid p v.newId) ∧
      recordsOf t'.bpm.nodeAt (parent.addChild i mid p v.newId).childPids =
        recordsOf (v.splitLeaf p n c (parent.addChild i mid p v.newId) u).node
          (parent.addChild i mid p v.newId).childPids := by
  obtain ⟨u, i, r, t', hi, hrun, h'⟩ := splitNonRootNode_run h.shows.started h.above h.child h.paired h.count h.leaf
    h.middle h.newId h.fresh h.room hfit idx rest
  refine ⟨u, i, r, t', hi, hrun, h'.logged, ?_, h.above.records_after h'.shows h.child h.newId⟩
  rw [h'.node _ h.above.pid]
  simp only [View.splitLeaf]
  rw [View.put_node_ne _ _ (Ne.symm h.pid_ne), View.put_node_ne _ _ (Ne.symm h.newId_ne.2), View.put_node_same]

theorem last_of_keeps (h : LeafOverflow t v n parent p c cs mid) {idx : Int} {rest : List Crumb}
    (hk : SplitKeeps t n p c parent ((c, idx) :: rest)) :
    p = parent.rightmostPtr ∧ (∀ k ∈ parent.keys, BTreeKey.Lt k mid) ∧ PiecesFit n parent mid := by
  obtain ⟨r', t'', parent', hrun', hlog, hnode', -, hasc, heq⟩ := hk
  have hall : AllFit (BTree.splitNonRootNode true n p ((c, idx) :: rest) { t with serialized := [] }).2 := by
    rwa [hrun']
  have hfit : PiecesFit n parent mid :=
    piecesFit_of_split h.shows.started.shows h.above h.child h.paired h.count h.leaf h.middle h.newId h.fresh hall
  obtain ⟨u, i, r, t', hi, hrun, -, hnode, hafter⟩ := h.run hfit idx rest
  cases hrun.symm.trans hrun'
  cases hnode.symm.trans hnode'
  rw [hafter] at heq
  have hlast := h.above.lastKey_of_records h.shows h.fresh h.leaf h.count h.two h.ascending h.child h.newId_ne.1 heq
  rw [BTreePage.addChild_keys h.above.values] at hasc
  obtain ⟨hend, habove⟩ := putAt_last hi.1 hasc hlast
  exact ⟨h.above.last_of_records h.shows h.fresh h.leaf h.count h.two h.ascending h.child h.newId_ne.1
    h.children_length hend heq, habove, hfit⟩

theorem keeps_of_last (h : LeafOverflow t v n parent p c cs mid) (hlast : p = parent.rightmostPtr)
    (habove : ∀ k ∈ parent.keys, BTreeKey.Lt k mid) (hfit : PiecesFit n parent mid) (idx : Int)
    (rest : List Crumb) : SplitKeeps t n p c parent ((c, idx) :: rest) := by
  obtain ⟨u, i, r, t', hi, hrun, hlog, hnode, hafter⟩ := h.run hfit idx rest
  have hget : parent.keys.getLast? = some (parent.keys.getLast h.above.keys) :=
    List.getLast?_eq_getLast_of_ne_nil h.above.keys
  have hend := hi.end_of_last h.above.ascending hget (habove _ (List.getLast_mem h.above.keys))
  refine ⟨r, t', _, hrun, hlog, hnode, ?_, ?_, ?_⟩
  · rw [BTreePage.addChild_keys h.above.values, putAt_length _ _ hi.1]
  · rw [BTreePage.addChild_keys h.above.values, hend, putAt_end]
    refine List.pairwise_append.mpr ⟨h.above.ascending, List.pairwise_singleton .., fun k hk x hx => ?_⟩
    exact List.mem_singleton.mp hx ▸ habove k hk
  · exact hafter.trans (h.above.records_last h.shows h.fresh h.leaf h.count h.two h.ascending hlast h.newId_ne.1
      h.children_length hend)

end LeafOverflow

/-- A split of a leaf below a parent that has room loses nothing if and only if the leaf is the last child, its
middle key is above the keys of the parent, and the three nodes that are written fit in their pages. -/
theorem splitNonRootNode_keeps_iff {t : BTree Disk} {v : View} {n parent : BTreePage} {p c : PageId}
    {cs : List PageId} {mid : BTreeKey} (h : LeafOverflow t v n parent p c cs mid) (idx : Int) (rest : List Crumb) :
    SplitKeeps t n p c parent ((c, idx) :: rest) ↔
      p = parent.rightmostPtr ∧ (∀ k ∈ parent.keys, BTreeKey.Lt k mid) ∧ PiecesFit n parent mid :=
  ⟨h.last_of_keeps, fun hlast => h.keeps_of_last hlast.1 hlast.2.1 hlast.2.2 idx rest⟩

/-- A root over two leaves. -/
def overTwo : BTreePage where
  keys := [byteKey 68]
  flags := 0
  rightmostPtr := 2
  next := 0
  values := .children [1]

/-- The nodes of the tree. -/
def overTwoNodes : List BTreePage := [(oneRecord 1 2 65).node, (oneRecord 2 0 68).node, overTwo]

theorem overTwo_shows : Shows (indexOf 2 3 overTwoNodes) (viewOf 2 3 overTwoNodes) := indexOf_shows (by decide)

theorem overTwo_leafParent : LeafParent (viewOf 2 3 overTwoNodes) 3 overTwo [1] := by
  refine ⟨by decide, rfl, rfl, by decide, by decide, by decide, ?_⟩
  intro q hq
  simp only [BTreePage.childPids, overTwo, List.cons_append, List.nil_append, List.mem_cons, List.not_mem_nil,
    or_false] at hq
  rcases hq with rfl | rfl
  · exact ⟨by decide, _, rfl, rfl⟩
  · exact ⟨by decide, _, rfl, rfl⟩

/-- The last leaf is split. -/
theorem splitNonRootNode_keeps_last :
    SplitKeeps (indexOf 2 3 overTwoNodes) (threeRecords 0 68) 2 3 overTwo [(3, -1)] :=
  (splitNonRootNode_keeps_iff ⟨overTwo_shows, overTwo_leafParent, by decide, ⟨by decide, by decide⟩,
    rfl, rfl, by decide, by decide, rfl, by decide, by decide, by decide⟩ (-1) []).mpr
    ⟨rfl, by decide, by decide, by decide, by decide⟩

/-- The first leaf is split: the root is left with two pointers to its lower half. -/
theorem splitNonRootNode_keeps_fails :
    LeafOverflow (indexOf 2 3 overTwoNodes) (viewOf 2 3 overTwoNodes) (threeRecords 2 65) overTwo 1 3 [1] (byteKey 66) ∧
      ¬ SplitKeeps (indexOf 2 3 overTwoNodes) (threeRecords 2 65) 1 3 overTwo [(3, 0)] := by
  have h : LeafOverflow (indexOf 2 3 overTwoNodes) (viewOf 2 3 overTwoNodes) (threeRecords 2 65) overTwo 1 3 [1]
      (byteKey 66) :=
    ⟨overTwo_shows, overTwo_leafParent, by decide, ⟨by decide, by decide⟩, rfl, rfl, by decide, by decide, rfl,
      by decide, by decide, by decide⟩
  exact ⟨h, fun hk => absurd (h.last_of_keeps hk).1 (by decide)⟩

end SomeDB
