import SomeDB.Index.MergeRun
import SomeDB.Index.SplitPages

/-!
# The pages after a merge

`mergeInner_keeps_iff` says when two internal nodes are merged without losing a child: only if the right one is
passed in, the parent has no other separator and the merged node fits in a page.
-/

namespace SomeDB

open Lib

/-! ## Two internal nodes -/

/-- The internal nodes `x` and `y` are neighbours below the node `parent` in page `c`, with the separator `k` at
position `i` between them, and have together no more children than a node may have. -/
structure InnerPair (t : BTree Disk) (v : View) (c p q : PageId) (parent x y : BTreePage) (cs xs ys : List PageId)
    (i : Nat) (k : BTreeKey) : Prop where
  shows : Shows t v
  pid : c ≠ 0
  node : v.node c = some parent
  values : parent.values = .children cs
  nonzero : ∀ r ∈ parent.childPids, r ≠ 0
  nodup : (c :: parent.childPids).Nodup
  left : parent.childPids[i]? = some p
  right : parent.childPids[i + 1]? = some q
  sep : parent.keys[i]? = some k
  leftNode : v.node p = some x
  rightNode : v.node q = some y
  leftValues : x.values = .children xs
  rightValues : y.values = .children ys
  fits : x.keys.length + y.keys.length + 2 ≤ v.maxSize.toNat + 1

/-- `MergeNonLeafNodeStrategy::merge` of the nodes `x` and `y`; the node that is passed in is `y`, with its
sibling to the left, or `x`, with its sibling to the right. -/
def mergePair (c p q : PageId) (parent x y : BTreePage) (i : Nat) (isLeftSib : Bool) : TreeM Disk BTree.LocalInfo :=
  if isLeftSib then BTree.mergeNodes ⟨y, q, x, p, parent⟩ (c, -1) true
  else BTree.mergeNodes ⟨x, p, y, q, parent⟩ (c, i) false

/-- The merge completes and serializes only nodes that fit in a page, the left page holds the separator and the
children of both nodes, and the parent, if it has a key left, no longer has that separator and the right node. -/
def MergeKeeps (t : BTree Disk) (c p q : PageId) (parent x y : BTreePage) (xs ys : List PageId) (i : Nat)
    (k : BTreeKey) (isLeftSib : Bool) : Prop :=
  ∃ loc t' left, mergePair c p q parent x y i isLeftSib { t with serialized := [] } = (.ok loc, t') ∧ AllFit t' ∧
    t'.bpm.nodeAt p = some left ∧ left.keys = x.keys ++ [k] ++ y.keys ∧
    left.values = .children (xs ++ [x.rightmostPtr] ++ ys) ∧ left.rightmostPtr = y.rightmostPtr ∧
    (2 ≤ parent.keys.length → ∃ parent', t'.bpm.nodeAt c = some parent' ∧
      parent'.keys = parent.keys.eraseIdx i ∧ parent'.childPids = parent.childPids.eraseIdx (i + 1))

namespace InnerPair

variable {t : BTree Disk} {v : View} {c p q : PageId} {parent x y : BTreePage} {cs xs ys : List PageId} {i : Nat}
  {k : BTreeKey}

theorem childPids_eq (h : InnerPair t v c p q parent x y cs xs ys i k) :
    parent.childPids = cs ++ [parent.rightmostPtr] := by simp [BTreePage.childPids, h.values]

theorem ne (h : InnerPair t v c p q parent x y cs xs ys i k) : p ≠ 0 ∧ q ≠ 0 ∧ p ≠ c := by
  have hp := List.mem_of_getElem? h.left
  refine ⟨h.nonzero p hp, h.nonzero q (List.mem_of_getElem? h.right), ?_⟩
  rintro rfl
  exact (List.nodup_cons.mp h.nodup).1 hp

theorem children_length (h : InnerPair t v c p q parent x y cs xs ys i k) : cs.length = parent.keys.length :=
  (BTreePage.valCount_children h.values).symm.trans (h.shows.paired h.pid h.node).2.1

theorem last_sep (h : InnerPair t v c p q parent x y cs xs ys i k) (hlast : i + 1 = parent.keys.length) :
    parent.keys.getLast? = some k := by
  rw [List.getLast?_eq_getElem?, ← hlast, Nat.add_sub_cancel, h.sep]

/-- With the node on the right passed in: the merged node is stored, then the parent. -/
theorem eq_left (h : InnerPair t v c p q parent x y cs xs ys i k) (hlast : i + 1 = parent.keys.length) :
    mergePair c p q parent x y i true { t with serialized := [] } =
      (BTree.flushNode p (x.absorbInner k y) >>= fun _ =>
        BTree.flushNode c { parent with keys := parent.keys.dropLast, rightmostPtr := 0 } >>= fun _ =>
        pure ⟨y, q, x.absorbInner k y, p, { parent with keys := parent.keys.dropLast, rightmostPtr := 0 }⟩ :
        TreeM Disk BTree.LocalInfo) { t with serialized := [] } := by
  obtain ⟨hp0, hq0, -⟩ := h.ne
  have hx : x.isLeaf = false := by simp [BTreePage.isLeaf, h.leftValues]
  have hy : y.isLeaf = false := by simp [BTreePage.isLeaf, h.rightValues]
  have hle := h.fits
  rw [mergePair, if_pos rfl]
  exact BTree.mergeNodes_inner_left h.shows.started.shows hq0 h.rightNode hy ((h.shows.node p hp0).trans h.leftNode)
    hx (h.last_sep hlast) (by omega)

theorem paired (h : InnerPair t v c p q parent x y cs xs ys i k) :
    (x.absorbInner k y).Paired ∧ (x.absorbInner k y).valCount = (x.absorbInner k y).keys.length := by
  obtain ⟨hp0, hq0, -⟩ := h.ne
  obtain ⟨hxp, hxc, -⟩ := h.shows.paired hp0 h.leftNode
  obtain ⟨hyp, hyc, -⟩ := h.shows.paired hq0 h.rightNode
  obtain ⟨hpar, -, -⟩ := h.shows.paired h.pid h.node
  exact BTreePage.absorbInner_paired h.leftValues h.rightValues hxp hyp hxc hyc
    (hpar.1 k (List.mem_of_getElem? h.sep))

/-- If both nodes fit in their pages, the merge completes; what the pages hold. -/
theorem run_left (h : InnerPair t v c p q parent x y cs xs ys i k) (hlast : i + 1 = parent.keys.length)
    (hmerged : (x.absorbInner k y).FitsPage)
    (hdemoted : ({ parent with keys := parent.keys.dropLast, rightmostPtr := 0 } : BTreePage).FitsPage) :
    ∃ loc t', mergePair c p q parent x y i true { t with serialized := [] } = (.ok loc, t') ∧
      ShowsFit t' ((v.put p (x.absorbInner k y)).put c parent.demote) := by
  obtain ⟨hp0, -, -⟩ := h.ne
  obtain ⟨hab, habc⟩ := h.paired
  obtain ⟨hpar, hcount, -⟩ := h.shows.paired h.pid h.node
  obtain ⟨hdem, htrim⟩ := BTreePage.demote_paired h.values hpar hcount
  obtain ⟨t₁, hr₁, hs₁⟩ :=
    BTree.flushNode_fit h.shows.started hp0 (h.shows.live_of_node hp0 h.leftNode) hab hmerged
  obtain ⟨t₂, hr₂, hs₂⟩ := BTree.flushNode_fit hs₁ h.pid (h.shows.live_of_node h.pid h.node) hdem hdemoted
  rw [BTreePage.trim_eq_self habc, htrim] at hs₂
  refine ⟨⟨y, q, x.absorbInner k y, p, { parent with keys := parent.keys.dropLast, rightmostPtr := 0 }⟩, t₂, ?_,
    hs₂⟩
  rw [h.eq_left hlast, Prog.bind_ok hr₁, Prog.bind_ok hr₂]
  rfl

/-- If the merge serializes only nodes that fit in a page, the merged node and the parent do. -/
theorem fits_of_left (h : InnerPair t v c p q parent x y cs xs ys i k) (hlast : i + 1 = parent.keys.length)
    (hfit : AllFit (mergePair c p q parent x y i true { t with serialized := [] }).2) :
    (x.absorbInner k y).FitsPage ∧
      ({ parent with keys := parent.keys.dropLast, rightmostPtr := 0 } : BTreePage).FitsPage := by
  obtain ⟨hp0, -, -⟩ := h.ne
  rw [h.eq_left hlast] at hfit
  have hmerged := hfit.head (.bind (.flushNode _ _) fun _ => .pure _)
  obtain ⟨t₁, -, hfit₁, -⟩ := h.shows.started.shows.flushNode_bind hp0 (h.shows.live_of_node hp0 h.leftNode)
    h.paired.1 hfit (.bind (.flushNode _ _) fun _ => .pure _)
  refine ⟨hmerged, AllFit.head ?_ hfit₁⟩
  exact .pure _

theorem merged_fits_iff (h : InnerPair t v c p q parent x y cs xs ys i k) :
    (x.absorbInner k y).FitsPage ↔ nodeSize false (x.keys ++ [k] ++ y.keys) ≤ 4096 := by
  rw [fitsPage_iff, BTreePage.absorbInner_eq h.leftValues h.rightValues]
  exact Iff.rfl

/-- With the node on the left passed in the merge does not complete. -/
theorem fails_right (h : InnerPair t v c p q parent x y cs xs ys i k) :
    Prog.Fails (mergePair c p q parent x y i false) { t with serialized := [] } := by
  obtain ⟨hp0, hq0, -⟩ := h.ne
  have hx : x.isLeaf = false := by simp [BTreePage.isLeaf, h.leftValues]
  have hle := h.fits
  rw [Prog.Fails, mergePair, if_neg (by simp), BTree.mergeNodes, if_neg (by simp [hx])]
  exact Prog.Fails.bind (BTree.mergeInternalNodes_right h.shows.started.shows hp0 h.leftNode
    ((h.shows.node q hq0).trans h.rightNode) hx (by omega) i) _

theorem keeps_of_single (h : InnerPair t v c p q parent x y cs xs ys i k) (hone : parent.keys.length = 1)
    (hfit : nodeSize false (x.keys ++ [k] ++ y.keys) ≤ 4096) : MergeKeeps t c p q parent x y xs ys i k true := by
  have hi := (List.getElem?_eq_some_iff.mp h.sep).1
  obtain ⟨hp0, -, hpc⟩ := h.ne
  -- the parent is left without a key
  have hnil : parent.keys.dropLast = [] := List.eq_nil_of_length_eq_zero (by rw [List.length_dropLast, hone])
  obtain ⟨loc, t', hrun, hs⟩ := h.run_left (by omega) (h.merged_fits_iff.mpr hfit) (BTreePage.fitsPage_of_nil hnil)
  have hnode : t'.bpm.nodeAt p = some (x.absorbInner k y) := by
    rw [hs.node p hp0, View.put_node_ne _ _ hpc, View.put_node_same]
  rw [BTreePage.absorbInner_eq h.leftValues h.rightValues] at hnode
  exact ⟨loc, t', _, hrun, hs.logged, hnode, rfl, rfl, rfl, fun htwo => by omega⟩

theorem single_of_keeps (h : InnerPair t v c p q parent x y cs xs ys i k) {isLeftSib : Bool}
    (hlast : isLeftSib = true → i + 1 = parent.keys.length)
    (hk : MergeKeeps t c p q parent x y xs ys i k isLeftSib) :
    isLeftSib = true ∧ parent.keys.length = 1 ∧ nodeSize false (x.keys ++ [k] ++ y.keys) ≤ 4096 := by
  obtain ⟨loc, t', left, hrun, hlog, -, -, -, -, hparent⟩ := hk
  cases isLeftSib with
  | false =>
    obtain ⟨e, t'', hfail⟩ := h.fails_right
    cases hrun.symm.trans hfail
  | true =>
    have hend := hlast rfl
    obtain ⟨hmerged, hdemoted⟩ := h.fits_of_left hend (by rwa [hrun])
    refine ⟨rfl, ?_, h.merged_fits_iff.mp hmerged⟩
    by_contra hone
    obtain ⟨loc', t'', hrun', hs⟩ := h.run_left hend hmerged hdemoted
    cases hrun.symm.trans hrun'
    obtain ⟨parent', hnode, -, hpids⟩ := hparent (by omega)
    rw [hs.node c h.pid, View.put_node_same, Option.some.injEq] at hnode
    -- the parent has no last child, and lost the one that was merged instead of the other
    rw [← hnode, BTreePage.demote, h.values, h.childPids_eq, hend, ← h.children_length,
      List.eraseIdx_append_of_length_le (Nat.le_refl _)] at hpids
    simp only [BTreePage.childPids, Nat.sub_self, List.eraseIdx_cons_zero, List.append_nil] at hpids
    have hzero : (0 : PageId) ∈ cs := by
      rw [← hpids]
      simp
    exact h.nonzero 0 (by rw [h.childPids_eq]; exact List.mem_append_left _ hzero) rfl

end InnerPair

/-- Two neighbouring internal nodes are merged as they should if and only if the right one is passed in, the parent
has no other key and the merged node fits in a page. -/
theorem mergeInner_keeps_iff {t : BTree Disk} {v : View} {c p q : PageId} {parent x y : BTreePage}
    {cs xs ys : List PageId} {i : Nat} {k : BTreeKey} (h : InnerPair t v c p q parent x y cs xs ys i k)
    (isLeftSib : Bool) (hlast : isLeftSib = true → i + 1 = parent.keys.length) :
    MergeKeeps t c p q parent x y xs ys i k isLeftSib ↔
      isLeftSib = true ∧ parent.keys.length = 1 ∧ nodeSize false (x.keys ++ [k] ++ y.keys) ≤ 4096 :=
  ⟨h.single_of_keeps hlast, fun hone => hone.1 ▸ h.keeps_of_single hone.2.1 hone.2.2⟩

/-- An internal node with one key. -/
def oneKey (byte : UInt8) (child last next : PageId) : BTreePage where
  keys := [byteKey byte]
  flags := 0
  rightmostPtr := last
  next := next
  values := .children [child]

/-- A root in page 7 over the internal nodes in the pages 5 and 6, over four leaves. -/
def threeLevels : List BTreePage :=
  [(oneRecord 1 2 65).node, (oneRecord 2 3 66).node, (oneRecord 3 4 67).node, (oneRecord 4 0 68).node,
    oneKey 66 1 2 6, oneKey 68 3 4 0, oneKey 67 5 6 0]

theorem threeLevels_pair : InnerPair (indexOf 3 7 threeLevels) (viewOf 3 7 threeLevels) 7 5 6 (oneKey 67 5 6 0)
    (oneKey 66 1 2 6) (oneKey 68 3 4 0) [5] [1] [3] 0 (byteKey 67) :=
  ⟨indexOf_shows (by decide), by decide, rfl, rfl, by simp [BTreePage.childPids, oneKey],
    by simp [BTreePage.childPids, oneKey], rfl, rfl, rfl, rfl, rfl, rfl, rfl, by decide⟩

/-- The right node is passed in. -/
theorem mergeInner_keeps_left : MergeKeeps (indexOf 3 7 threeLevels) 7 5 6 (oneKey 67 5 6 0) (oneKey 66 1 2 6)
    (oneKey 68 3 4 0) [1] [3] 0 (byteKey 67) true :=
  (mergeInner_keeps_iff threeLevels_pair true (fun _ => rfl)).mpr ⟨rfl, rfl, by decide⟩

/-- The left node is passed in: nothing is stored. -/
theorem mergeInner_keeps_fails :
    InnerPair (indexOf 3 7 threeLevels) (viewOf 3 7 threeLevels) 7 5 6 (oneKey 67 5 6 0) (oneKey 66 1 2 6)
        (oneKey 68 3 4 0) [5] [1] [3] 0 (byteKey 67) ∧
      ¬ MergeKeeps (indexOf 3 7 threeLevels) 7 5 6 (oneKey 67 5 6 0) (oneKey 66 1 2 6) (oneKey 68 3 4 0) [1] [3] 0
        (byteKey 67) false :=
  ⟨threeLevels_pair, fun hk => Bool.false_ne_true (threeLevels_pair.single_of_keeps (by simp) hk).1⟩

end SomeDB
