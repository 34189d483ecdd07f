import SomeDB.Index.Tree

/-!
# What one level of a merge does

`merge` reads the parent, the node and its sibling, merges the two if they fit into one node, stores
the parent and goes on one level up (`mergeTail`). For each of its cases there is one lemma that says
which pages it writes and what it goes on with. `LeafMerge` and `InnerMerge` list the cases: a leaf is
kept, or merged with its sibling to the left or to the right; an internal node is kept or merged with
its sibling to the left. A merge of an internal node with its sibling to the right never returns: the
new node has one value too few to be stored.
-/

namespace SomeDB

open Lib

namespace BTreePage

/-- The leaf `l` with the records of the leaf `r` after its own. -/
def absorb (l r : BTreePage) : BTreePage :=
  match l.values, r.values with
  | .records ls, .records rs => { l with keys := l.keys ++ r.keys, values := .records (ls ++ rs) }
  | _, _ => l

theorem absorb_eq {l r : BTreePage} {ls rs : List RID} (hl : l.values = .records ls)
    (hr : r.values = .records rs) :
    l.absorb r = { l with keys := l.keys ++ r.keys, values := .records (ls ++ rs) } := by
  simp [absorb, hl, hr]

theorem absorb_isLeaf {l r : BTreePage} (hl : l.isLeaf = true) : (l.absorb r).isLeaf = true := by
  obtain ⟨ls, hls⟩ := values_of_isLeaf hl
  unfold absorb
  split
  · rfl
  · exact hl

theorem absorb_paired {l r : BTreePage} {ls rs : List RID} (hl : l.values = .records ls)
    (hr : r.values = .records rs) (hlp : l.Paired) (hrp : r.Paired)
    (hlc : l.valCount = l.keys.length) (hrc : r.valCount = r.keys.length) :
    (l.absorb r).Paired ∧ (l.absorb r).valCount = (l.absorb r).keys.length := by
  have hcount : (l.absorb r).valCount = (l.absorb r).keys.length := by
    rw [absorb_eq hl hr, valCount_records rfl, List.length_append, List.length_append, ← hlc, ← hrc,
      valCount_records hl, valCount_records hr]
  refine ⟨⟨fun k hk => ?_, Nat.le_of_eq hcount.symm⟩, hcount⟩
  rw [absorb_eq hl hr] at hk
  rcases List.mem_append.mp hk with hk | hk
  · exact hlp.1 k hk
  · exact hrp.1 k hk

/-- The parent after its last leaf was moved into the one at page `q`. Its last child is taken away;
what was its last child before becomes its rightmost one, unless it has no key left. -/
def popLast (parent : BTreePage) (q : PageId) : BTreePage :=
  match parent.values with
  | .records _ => parent
  | .children cs =>
    { parent with
      keys := parent.keys.dropLast
      values := .children cs.dropLast
      rightmostPtr := if parent.keys.length = 1 then parent.rightmostPtr else q }

/-- The parent after the leaf to the right of its first one was moved into that one, at page `p`. -/
def popFirst (parent : BTreePage) (p : PageId) : BTreePage :=
  match parent.values with
  | .records _ => parent
  | .children cs => { parent with keys := parent.keys.tail, values := .children (cs.tail.set 0 p) }

theorem popLast_eq {n : BTreePage} {cs : List PageId} (hcs : n.values = .children cs) (q : PageId) :
    n.popLast q = { n with
      keys := n.keys.dropLast
      values := .children cs.dropLast
      rightmostPtr := if n.keys.length = 1 then n.rightmostPtr else q } := by
  simp [popLast, hcs]

theorem popLast_paired {n : BTreePage} {cs : List PageId} (hcs : n.values = .children cs)
    (hp : n.Paired) (hv : n.valCount = n.keys.length) (q : PageId) :
    (n.popLast q).Paired ∧ (n.popLast q).valCount = (n.popLast q).keys.length := by
  have hlen : cs.length = n.keys.length := (valCount_children hcs).symm.trans hv
  have hcount : (n.popLast q).valCount = (n.popLast q).keys.length := by
    rw [popLast_eq hcs, valCount_children rfl, List.length_dropLast, List.length_dropLast, hlen]
  refine ⟨⟨fun k hk => ?_, Nat.le_of_eq hcount.symm⟩, hcount⟩
  rw [popLast_eq hcs] at hk
  exact hp.1 k (List.dropLast_subset _ hk)

theorem popFirst_eq {n : BTreePage} {cs : List PageId} (hcs : n.values = .children cs) (p : PageId) :
    n.popFirst p = { n with keys := n.keys.tail, values := .children (cs.tail.set 0 p) } := by
  simp [popFirst, hcs]

theorem popFirst_paired {n : BTreePage} {cs : List PageId} (hcs : n.values = .children cs)
    (hp : n.Paired) (hv : n.valCount = n.keys.length) (p : PageId) :
    (n.popFirst p).Paired ∧ (n.popFirst p).valCount = (n.popFirst p).keys.length := by
  have hlen : cs.length = n.keys.length := (valCount_children hcs).symm.trans hv
  have hcount : (n.popFirst p).valCount = (n.popFirst p).keys.length := by
    rw [popFirst_eq hcs, valCount_children rfl, List.length_set, List.length_tail, List.length_tail,
      hlen]
  refine ⟨⟨fun k hk => ?_, Nat.le_of_eq hcount.symm⟩, hcount⟩
  rw [popFirst_eq hcs] at hk
  exact hp.1 k (List.mem_of_mem_tail hk)

/-- The internal node `l` with the separator `k` and the internal node `r` after its own children. -/
def absorbInner (l : BTreePage) (k : BTreeKey) (r : BTreePage) : BTreePage :=
  match l.values, r.values with
  | .children ls, .children rs =>
    { l with
      keys := l.keys ++ [k] ++ r.keys
      values := .children (ls ++ [l.rightmostPtr] ++ rs)
      rightmostPtr := r.rightmostPtr }
  | _, _ => l

theorem absorbInner_eq {l r : BTreePage} {k : BTreeKey} {ls rs : List PageId}
    (hl : l.values = .children ls) (hr : r.values = .children rs) : l.absorbInner k r =
      { l with
        keys := l.keys ++ [k] ++ r.keys
        values := .children (ls ++ [l.rightmostPtr] ++ rs)
        rightmostPtr := r.rightmostPtr } := by
  simp [absorbInner, hl, hr]

theorem absorbInner_paired {l r : BTreePage} {k : BTreeKey} {ls rs : List PageId}
    (hl : l.values = .children ls) (hr : r.values = .children rs) (hlp : l.Paired) (hrp : r.Paired)
    (hlc : l.valCount = l.keys.length) (hrc : r.valCount = r.keys.length) (hk : 1 ≤ k.length) :
    (l.absorbInner k r).Paired ∧ (l.absorbInner k r).valCount = (l.absorbInner k r).keys.length := by
  have hcount : (l.absorbInner k r).valCount = (l.absorbInner k r).keys.length := by
    rw [absorbInner_eq hl hr, valCount_children rfl]
    simp only [List.length_append, List.length_singleton]
    rw [← hlc, ← hrc, valCount_children hl, valCount_children hr]
  refine ⟨⟨fun k' hk' => ?_, Nat.le_of_eq hcount.symm⟩, hcount⟩
  rw [absorbInner_eq hl hr] at hk'
  simp only [List.mem_append, List.mem_singleton] at hk'
  rcases hk' with (hk' | rfl) | hk'
  · exact hlp.1 k' hk'
  · exact hk
  · exact hrp.1 k' hk'

/-- The parent, as it is stored, after its last separator was moved down. -/
def demote (parent : BTreePage) : BTreePage :=
  match parent.values with
  | .records _ => parent
  | .children cs =>
    { parent with keys := parent.keys.dropLast, values := .children cs.dropLast, rightmostPtr := 0 }

/-- The parent still holds one child too many in memory, which storing it drops. -/
theorem demote_paired {n : BTreePage} {cs : List PageId} (hcs : n.values = .children cs)
    (hp : n.Paired) (hv : n.valCount = n.keys.length) :
    ({ n with keys := n.keys.dropLast, rightmostPtr := 0 } : BTreePage).Paired ∧
      ({ n with keys := n.keys.dropLast, rightmostPtr := 0 } : BTreePage).trim = n.demote := by
  have hlen : cs.length = n.keys.length := (valCount_children hcs).symm.trans hv
  refine ⟨⟨fun k hk => hp.1 k (List.dropLast_subset _ hk), ?_⟩, ?_⟩
  · rw [valCount_children (by exact hcs)]
    simp only [List.length_dropLast]
    omega
  · simp only [trim, demote, hcs, List.length_dropLast, ← hlen]
    rw [← List.dropLast_eq_take]

end BTreePage

section Pages

variable {t : BTree Disk} {v : View} {p q : PageId} {l r : BTreePage}

/-- Two leaves of the index in one node. -/
theorem Shows.absorb_paired (hs : Shows t v) (hp0 : p ≠ 0) (hp : v.node p = some l) (hq0 : q ≠ 0)
    (hq : v.node q = some r) (hl : l.isLeaf = true) (hr : r.isLeaf = true) :
    (l.absorb r).Paired ∧ (l.absorb r).valCount = (l.absorb r).keys.length := by
  obtain ⟨ls, hls⟩ := BTreePage.values_of_isLeaf hl
  obtain ⟨rs, hrs⟩ := BTreePage.values_of_isLeaf hr
  obtain ⟨hlp, hlc, -⟩ := hs.paired hp0 hp
  obtain ⟨hrp, hrc, -⟩ := hs.paired hq0 hq
  exact BTreePage.absorb_paired hls hrs hlp hrp hlc hrc

/-- Two internal nodes of the index in one node, with a key between them. -/
theorem Shows.absorbInner_paired (hs : Shows t v) (hp0 : p ≠ 0) (hp : v.node p = some l) (hq0 : q ≠ 0)
    (hq : v.node q = some r) (hl : l.isLeaf = false) (hr : r.isLeaf = false) {k : BTreeKey} (hk : 1 ≤ k.length) :
    (l.absorbInner k r).Paired ∧ (l.absorbInner k r).valCount = (l.absorbInner k r).keys.length := by
  obtain ⟨ls, hls⟩ := BTreePage.values_of_not_isLeaf (by rw [hl]; simp)
  obtain ⟨rs, hrs⟩ := BTreePage.values_of_not_isLeaf (by rw [hr]; simp)
  obtain ⟨hlp, hlc, -⟩ := hs.paired hp0 hp
  obtain ⟨hrp, hrc, -⟩ := hs.paired hq0 hq
  exact BTreePage.absorbInner_paired hls hrs hlp hrp hlc hrc hk

end Pages

theorem vecErase_of_lt {α : Type} {xs : List α} {i : Nat} (h : i < xs.length) :
    BTree.vecErase xs i = .ok (xs.eraseIdx i) := if_pos h

theorem vecErase_of_not_lt {α : Type} {xs : List α} {i : Nat} (h : ¬ i < xs.length) :
    BTree.vecErase xs i = .error .outOfBounds := if_neg h

namespace BTree

theorem leftMergedParent_ok {parent : BTreePage} {cs : List PageId} (hcs : parent.values = .children cs)
    (hc : parent.valCount = parent.keys.length) (hne : parent.keys ≠ []) (q : PageId) :
    leftMergedParent parent q = .ok (parent.popLast q) := by
  have hlen : cs.length = parent.keys.length := (BTreePage.valCount_children hcs).symm.trans hc
  have hpos : 0 < parent.keys.length := List.length_pos_iff.mpr hne
  have hdrop : ∀ {α : Type} (xs : List α), 0 < xs.length → vecPopBack xs = .ok xs.dropLast := by
    intro α xs hx
    rw [vecPopBack, vecErase, if_pos (by omega), List.eraseIdx_length_sub_one]
  rw [leftMergedParent, BTreePage.internalChildren, hcs]
  by_cases h1 : parent.keys.length = 1
  · obtain ⟨x, rfl⟩ := List.length_eq_one_iff.mp (hlen.trans h1)
    simp only [h1, if_true, bind, Except.bind, vecAt_eq (show [x][0]? = some x from rfl),
      hdrop _ hpos, hdrop ([x].set 0 q) (by simp)]
    simp [BTreePage.popLast, hcs, h1, pure, Except.pure]
  · simp only [h1, if_false, bind, Except.bind, hdrop _ hpos, hdrop cs (by omega)]
    simp [BTreePage.popLast, hcs, h1, pure, Except.pure]

/-- Erasing the first child leaves one, or the access to it fails. -/
theorem rightMergedParent_ok {parent : BTreePage} {cs : List PageId}
    (hcs : parent.values = .children cs) (hc : parent.valCount = parent.keys.length)
    (hlen : 2 ≤ parent.keys.length) (p : PageId) :
    rightMergedParent parent 0 p = .ok (parent.popFirst p) := by
  have hl : cs.length = parent.keys.length := (BTreePage.valCount_children hcs).symm.trans hc
  obtain ⟨k, ks, hks⟩ := List.exists_cons_of_length_pos (by omega : 0 < parent.keys.length)
  obtain ⟨x, xs, rfl⟩ := List.exists_cons_of_length_pos (by omega : 0 < cs.length)
  obtain ⟨y, ys, rfl⟩ := List.exists_cons_of_length_pos (by simp at hl; omega : 0 < xs.length)
  rw [rightMergedParent, BTreePage.internalChildren, hcs]
  simp only [vecErase, hks, bind, Except.bind, Int.toNat_zero, List.length_cons, Nat.zero_lt_succ,
    if_true, List.eraseIdx_cons_zero, vecAt_eq (show (y :: ys)[0]? = some y from rfl)]
  simp [BTreePage.popFirst, hcs, hks, pure, Except.pure]

theorem rightMergedParent_fails {parent : BTreePage} {cs : List PageId}
    (hcs : parent.values = .children cs) (hc : parent.valCount = parent.keys.length)
    (hlen : parent.keys.length = 1) (p : PageId) :
    ∃ e, rightMergedParent parent 0 p = .error e := by
  have hl : cs.length = 1 := ((BTreePage.valCount_children hcs).symm.trans hc).trans hlen
  obtain ⟨x, rfl⟩ := List.length_eq_one_iff.mp hl
  rw [rightMergedParent, BTreePage.internalChildren, hcs]
  simp only [vecErase, bind, Except.bind, Int.toNat_zero, List.length_singleton, Nat.zero_lt_one,
    if_true, List.eraseIdx_cons_zero]
  exact ⟨_, rfl⟩

/-- What `merge` goes on with after it stored the parent at page `c`; `root` is the page that becomes
the root if the parent was the root and has no key left. -/
def mergeTail {σ : Type} [PageStore σ] (c : PageId) (parent : BTreePage) (root : PageId) :
    List Crumb → TreeM σ Unit
  | [] =>
    if parent.keys.length = 0 then do
      Prog.modify fun t => { t with rootPid := root }
      flushMeta
    else pure ()
  | above :: rest => merge c (above :: rest)

theorem mergeTail_logged (c : PageId) (parent : BTreePage) (root : PageId) (rest : List Crumb) :
    Logged (mergeTail c parent root rest) := by
  cases rest with
  | nil =>
    rw [mergeTail]
    split
    · exact .bind (.modify fun _ => List.suffix_rfl) fun _ => .flushMeta
    · exact .pure _
  | cons above rest => exact .merge _ _

theorem mergeTail_congr {a b : BTreePage} (h : a.keys = b.keys) (c root : PageId) (rest : List Crumb) :
    (mergeTail c a root rest : TreeM Disk Unit) = mergeTail c b root rest := by
  cases rest with
  | nil => rw [mergeTail, mergeTail, h]
  | cons above rest => rfl

theorem flushNode_short {n : BTreePage} (h : n.valCount < n.keys.length) (p : PageId) (t : BTree Disk) :
    Prog.Fails (flushNode p n) t := by
  obtain ⟨e, he⟩ := BTreePage.serializeInto_short h (t.heap 0).bytes
  rw [flushNode]
  refine Prog.Fails.bind ?_ _
  exact ⟨e, _, by simp only [serializeNode, alloc, Bind.bind, Prog.modify, Prog.lift, he]; rfl⟩

section Level

variable {t : BTree Disk} {v : View} {p c q : PageId} {node parent sib : BTreePage} {cs : List PageId}
  {idx : Int} {rest : List Crumb}

/-- The parent, the node and the sibling are read. -/
theorem merge_read (hs : Shows t v) (hc0 : c ≠ 0) (hc : v.node c = some parent)
    (hcs : parent.values = .children cs) (hp0 : p ≠ 0) (hp : v.node p = some node)
    (hq : sibPid cs node (idx = -1) = .ok q) (hsib : t.bpm.nodeAt q = some sib) :
    merge p ((c, idx) :: rest) t =
      (mergeNodes ⟨node, p, sib, q, parent⟩ (c, idx) (idx = -1) >>= fun loc => do
        flushNode c loc.parent
        mergeTail c loc.parent (if (idx = -1 : Bool) then loc.siblingPid else loc.nodePid) rest
          : TreeM Disk Unit) t := by
  have hread : getBtreePage q t = (.ok sib, t) := by
    rw [getBtreePage, Prog.bind_ok (Shows.fetchNode_eq hsib)]
    rfl
  rw [merge, Prog.bind_ok (hs.getBtreePage_ok hc0 hc), BTreePage.internalChildren, hcs,
    Prog.lift_ok_bind, Prog.bind_ok (hs.getBtreePage_ok hp0 hp)]
  simp only
  rw [hq, Prog.lift_ok_bind, Prog.bind_ok hread]
  cases rest <;> rfl

/-- The parent is stored. -/
theorem flushParent (hs : Shows t v) (hc0 : c ≠ 0) (hlive : v.live c = true) (hp : parent.Paired)
    (hv : parent.valCount = parent.keys.length) {root : PageId}
    (hfit : AllFit ((do
      flushNode c parent
      mergeTail c parent root rest : TreeM Disk Unit) t).2) :
    ∃ t', (do
        flushNode c parent
        mergeTail c parent root rest : TreeM Disk Unit) t = mergeTail c parent root rest t' ∧
      AllFit (mergeTail c parent root rest t').2 ∧ Shows t' (v.put c parent) := by
  obtain ⟨t', hr, hfit', hs'⟩ := hs.flushNode_bind hc0 hlive hp hfit (mergeTail_logged _ _ _ _)
  rw [BTreePage.trim_eq_self hv] at hs'
  exact ⟨t', hr, hfit', hs'⟩

/-- The node `n` is stored in page `w`, and then the parent. -/
theorem merge_write (hs : Shows t v) (hc0 : c ≠ 0) (hc : v.node c = some parent) {w : PageId}
    {n : BTreePage} {loc : LocalInfo} {m : TreeM Disk LocalInfo}
    (hm : m t = (flushNode w n >>= fun _ => pure loc : TreeM Disk LocalInfo) t) (hw0 : w ≠ 0)
    (hwl : v.live w = true) (hn : n.Paired) (hnc : n.valCount = n.keys.length)
    (hp' : loc.parent.Paired) (hpc : loc.parent.valCount = loc.parent.keys.length)
    {root : LocalInfo → PageId}
    (hfit : AllFit ((m >>= fun loc => do
      flushNode c loc.parent
      mergeTail c loc.parent (root loc) rest : TreeM Disk Unit) t).2) :
    ∃ t', (m >>= fun loc => do
        flushNode c loc.parent
        mergeTail c loc.parent (root loc) rest : TreeM Disk Unit) t =
        mergeTail c loc.parent (root loc) rest t' ∧
      AllFit (mergeTail c loc.parent (root loc) rest t').2 ∧
      Shows t' ((v.put w n).put c loc.parent) := by
  rw [Prog.bind_congr_left hm, Prog.bind_assoc_apply] at hfit ⊢
  obtain ⟨t₁, hr₁, hfit₁, hs₁⟩ := hs.flushNode_bind hw0 hwl hn hfit
    (.bind (.pure _) fun _ => .bind (.flushNode _ _) fun _ => mergeTail_logged _ _ _ _)
  rw [BTreePage.trim_eq_self hnc] at hs₁
  rw [hr₁]
  exact flushParent hs₁ hc0 (hs.live_of_node hc0 hc) hp' hpc hfit₁

/-! ## Leaves -/

/-! What the strategy for leaves does with two leaves, by the nodes that it stores. -/

section LeafNodes

variable (hs : Shows t v) (hcs : parent.values = .children cs) (hleaf : node.isLeaf = true)
  (hss : sib.isLeaf = true)

include hs hcs hleaf hss

theorem mergeNodes_leaf_keep
    (hkeep : sib.keys.length = 0 ∨ node.keys.length + sib.keys.length > v.maxSize.toNat) (left : Bool) :
    mergeNodes ⟨node, p, sib, q, parent⟩ (c, idx) left t = (.ok ⟨node, p, sib, q, parent⟩, t) := by
  obtain ⟨ss, hss⟩ := BTreePage.values_of_isLeaf hss
  obtain ⟨ns, hns⟩ := BTreePage.values_of_isLeaf hleaf
  rw [mergeNodes, if_pos hleaf, mergeLeafNodes]
  simp only [BTreePage.leafRecords, hss, hns, BTreePage.internalChildren, hcs, Prog.lift_ok_bind,
    Prog.get_bind, hs.maxSize, if_pos hkeep]
  rfl

variable (hsne : sib.keys.length ≠ 0) (hle : node.keys.length + sib.keys.length ≤ v.maxSize.toNat)

include hsne hle

/-- The sibling to the left gets the records. -/
theorem mergeNodes_leaf_left (hc0 : c ≠ 0) (hc : v.node c = some parent) (hne : parent.keys ≠ []) :
    mergeNodes ⟨node, p, sib, q, parent⟩ (c, idx) true t =
      (flushNode q (sib.absorb node) >>= fun _ =>
        pure ⟨node, p, sib.absorb node, q, parent.popLast q⟩ : TreeM Disk LocalInfo) t := by
  obtain ⟨ss, hss⟩ := BTreePage.values_of_isLeaf hss
  obtain ⟨ns, hns⟩ := BTreePage.values_of_isLeaf hleaf
  have hkeep : ¬ (sib.keys.length = 0 ∨ node.keys.length + sib.keys.length > v.maxSize.toNat) := by
    omega
  rw [mergeNodes, if_pos hleaf, mergeLeafNodes]
  simp only [BTreePage.leafRecords, hss, hns, BTreePage.internalChildren, hcs, Prog.lift_ok_bind,
    Prog.get_bind, hs.maxSize, if_neg hkeep, if_true, leftMergedParent_ok hcs (hs.paired hc0 hc).2.1 hne q,
    BTreePage.absorb_eq hss hns]
  rfl

/-- The node gets the records of the last leaf. -/
theorem mergeNodes_leaf_right_last (hlast : q = parent.rightmostPtr) :
    mergeNodes ⟨node, p, sib, q, parent⟩ (c, idx) false t =
      (flushNode p (node.absorb sib) >>= fun _ =>
        pure ⟨node.absorb sib, p, sib, q, { parent with rightmostPtr := 0 }⟩ : TreeM Disk LocalInfo) t := by
  obtain ⟨ss, hss⟩ := BTreePage.values_of_isLeaf hss
  obtain ⟨ns, hns⟩ := BTreePage.values_of_isLeaf hleaf
  have hkeep : ¬ (sib.keys.length = 0 ∨ node.keys.length + sib.keys.length > v.maxSize.toNat) := by
    omega
  rw [mergeNodes, if_pos hleaf, mergeLeafNodes]
  simp only [BTreePage.leafRecords, hss, hns, BTreePage.internalChildren, hcs, Prog.lift_ok_bind,
    Prog.get_bind, hs.maxSize, if_neg hkeep, BTreePage.absorb_eq hns hss, if_pos hlast]
  rfl

/-- The first leaf gets the records of its neighbour. -/
theorem mergeNodes_leaf_right (hc0 : c ≠ 0) (hc : v.node c = some parent) (hidx : idx = 0)
    (hlast : q ≠ parent.rightmostPtr) (hlen : 2 ≤ parent.keys.length) :
    mergeNodes ⟨node, p, sib, q, parent⟩ (c, idx) false t =
      (flushNode p { node.absorb sib with next := sib.next } >>= fun _ =>
        pure ⟨{ node.absorb sib with next := sib.next }, p, sib, q, parent.popFirst p⟩
          : TreeM Disk LocalInfo) t := by
  obtain ⟨ss, hss⟩ := BTreePage.values_of_isLeaf hss
  obtain ⟨ns, hns⟩ := BTreePage.values_of_isLeaf hleaf
  subst hidx
  have hkeep : ¬ (sib.keys.length = 0 ∨ node.keys.length + sib.keys.length > v.maxSize.toNat) := by
    omega
  rw [mergeNodes, if_pos hleaf, mergeLeafNodes]
  simp only [BTreePage.leafRecords, hss, hns, BTreePage.internalChildren, hcs, Prog.lift_ok_bind,
    Prog.get_bind, hs.maxSize, if_neg hkeep, BTreePage.absorb_eq hns hss, if_neg hlast,
    rightMergedParent_ok hcs (hs.paired hc0 hc).2.1 hlen p]
  rfl

end LeafNodes


section Leaf

variable (hs : Shows t v) (hc0 : c ≠ 0) (hc : v.node c = some parent)
  (hcs : parent.values = .children cs) (hp0 : p ≠ 0) (hp : v.node p = some node)
  (hleaf : node.isLeaf = true) (hq : sibPid cs node (idx = -1) = .ok q)
  (hsib : t.bpm.nodeAt q = some sib)

include hs hc0 hc hcs hp0 hp hleaf hq hsib

/-- A sibling that is no leaf. -/
theorem merge_leaf_mixed (hss : sib.isLeaf = false) : Prog.Fails (merge p ((c, idx) :: rest)) t := by
  obtain ⟨ss, hss⟩ := BTreePage.values_of_not_isLeaf (by rw [hss]; simp)
  rw [Prog.Fails, merge_read hs hc0 hc hcs hp0 hp hq hsib]
  refine Prog.Fails.bind ?_ _
  rw [mergeNodes, if_pos hleaf, mergeLeafNodes, BTreePage.leafRecords, hss]
  exact ⟨_, _, rfl⟩

/-- The leaves are kept: the sibling is empty, or they do not fit into one node. -/
theorem merge_leaf_keep (hss : sib.isLeaf = true)
    (hkeep : sib.keys.length = 0 ∨ node.keys.length + sib.keys.length > v.maxSize.toNat)
    (hfit : AllFit (merge p ((c, idx) :: rest) t).2) :
    ∃ root t', merge p ((c, idx) :: rest) t = mergeTail c parent root rest t' ∧
      AllFit (mergeTail c parent root rest t').2 ∧ Shows t' v := by
  obtain ⟨hpar, hcount, -⟩ := hs.paired hc0 hc
  have hmerge : mergeNodes ⟨node, p, sib, q, parent⟩ (c, idx) (idx = -1) t =
      (.ok ⟨node, p, sib, q, parent⟩, t) := mergeNodes_leaf_keep hs hcs hleaf hss hkeep _
  rw [merge_read hs hc0 hc hcs hp0 hp hq hsib, Prog.bind_ok hmerge] at hfit ⊢
  obtain ⟨t', hr, hfit', hs'⟩ := flushParent hs hc0 (hs.live_of_node hc0 hc) hpar hcount hfit
  rw [View.put_of_node hc] at hs'
  exact ⟨_, t', hr, hfit', hs'⟩

omit hp0 hp hleaf hq hc0 hc hcs in
/-- A sibling with a key is not the metadata page. -/
theorem sib_ne_zero (hsne : sib.keys.length ≠ 0) : q ≠ 0 ∧ v.node q = some sib := by
  have hq0 : q ≠ 0 := by
    rintro rfl
    exact hsne (by rw [hs.nodeAt_zero hsib]; rfl)
  exact ⟨hq0, (hs.node q hq0).symm.trans hsib⟩

/-- The last leaf is moved into the sibling to its left. -/
theorem merge_leaf_left (hidx : idx = -1) (hss : sib.isLeaf = true) (hne : parent.keys ≠ [])
    (hsne : sib.keys.length ≠ 0) (hle : node.keys.length + sib.keys.length ≤ v.maxSize.toNat)
    (hfit : AllFit (merge p ((c, idx) :: rest) t).2) :
    ∃ t', merge p ((c, idx) :: rest) t = mergeTail c (parent.popLast q) q rest t' ∧
      AllFit (mergeTail c (parent.popLast q) q rest t').2 ∧
      Shows t' ((v.put q (sib.absorb node)).put c (parent.popLast q)) := by
  obtain ⟨hq0, hqn⟩ := sib_ne_zero hs hsib hsne
  obtain ⟨hpar, hcount, -⟩ := hs.paired hc0 hc
  obtain ⟨hab, habc⟩ := hs.absorb_paired hq0 hqn hp0 hp hss hleaf
  obtain ⟨hpop, hpopc⟩ := BTreePage.popLast_paired hcs hpar hcount q
  subst hidx
  have hmerge : mergeNodes ⟨node, p, sib, q, parent⟩ (c, -1) true t = _ :=
    mergeNodes_leaf_left hs hcs hleaf hss hsne hle hc0 hc hne
  rw [merge_read hs hc0 hc hcs hp0 hp hq hsib] at hfit ⊢
  exact merge_write hs hc0 hc hmerge hq0 (hs.live_of_node hq0 hqn) hab habc hpop hpopc hfit

omit hq in
/-- The sibling to the right, which is the last leaf, is moved into the first leaf. The parent keeps its
keys and has no rightmost child any more. -/
theorem merge_leaf_right_last (hidx : idx = 0) (hqn : node.next = q) (hss : sib.isLeaf = true)
    (hsne : sib.keys.length ≠ 0) (hle : node.keys.length + sib.keys.length ≤ v.maxSize.toNat)
    (hlast : q = parent.rightmostPtr) (hfit : AllFit (merge p ((c, idx) :: rest) t).2) :
    ∃ t', merge p ((c, idx) :: rest) t = mergeTail c { parent with rightmostPtr := 0 } p rest t' ∧
      AllFit (mergeTail c { parent with rightmostPtr := 0 } p rest t').2 ∧
      Shows t' ((v.put p (node.absorb sib)).put c { parent with rightmostPtr := 0 }) := by
  obtain ⟨hq0, hqs⟩ := sib_ne_zero hs hsib hsne
  obtain ⟨hpar, hcount, -⟩ := hs.paired hc0 hc
  obtain ⟨hab, habc⟩ := hs.absorb_paired hp0 hp hq0 hqs hleaf hss
  subst hidx
  have hq : sibPid cs node (decide ((0 : Int) = -1)) = .ok q := by simp [sibPid, hqn]
  have hmerge : mergeNodes ⟨node, p, sib, q, parent⟩ (c, 0) false t = _ :=
    mergeNodes_leaf_right_last hs hcs hleaf hss hsne hle hlast
  rw [merge_read hs hc0 hc hcs hp0 hp hq hsib] at hfit ⊢
  exact merge_write hs hc0 hc hmerge hp0 (hs.live_of_node hp0 hp) hab habc hpar hcount hfit

omit hq in
/-- The sibling to the right, which is not the last leaf, is moved into the first leaf. -/
theorem merge_leaf_right (hidx : idx = 0) (hqn : node.next = q) (hss : sib.isLeaf = true)
    (hsne : sib.keys.length ≠ 0) (hle : node.keys.length + sib.keys.length ≤ v.maxSize.toNat)
    (hlast : q ≠ parent.rightmostPtr) (hlen : 2 ≤ parent.keys.length)
    (hfit : AllFit (merge p ((c, idx) :: rest) t).2) :
    ∃ t', merge p ((c, idx) :: rest) t = mergeTail c (parent.popFirst p) p rest t' ∧
      AllFit (mergeTail c (parent.popFirst p) p rest t').2 ∧
      Shows t' ((v.put p { node.absorb sib with next := sib.next }).put c (parent.popFirst p)) := by
  obtain ⟨hq0, hqs⟩ := sib_ne_zero hs hsib hsne
  obtain ⟨hpar, hcount, -⟩ := hs.paired hc0 hc
  obtain ⟨hab, habc⟩ := hs.absorb_paired hp0 hp hq0 hqs hleaf hss
  obtain ⟨hpop, hpopc⟩ := BTreePage.popFirst_paired hcs hpar hcount p
  subst hidx
  have hq : sibPid cs node (decide ((0 : Int) = -1)) = .ok q := by simp [sibPid, hqn]
  have hmerge : mergeNodes ⟨node, p, sib, q, parent⟩ (c, 0) false t = _ :=
    mergeNodes_leaf_right hs hcs hleaf hss hsne hle hc0 hc rfl hlast hlen
  rw [merge_read hs hc0 hc hcs hp0 hp hq hsib] at hfit ⊢
  exact merge_write hs hc0 hc hmerge hp0 (hs.live_of_node hp0 hp) hab habc hpop hpopc hfit

omit hq in
/-- A parent of one key has no second leaf but the last one. -/
theorem merge_leaf_right_fails (hidx : idx = 0) (hqn : node.next = q) (hss : sib.isLeaf = true)
    (hsne : sib.keys.length ≠ 0) (hle : node.keys.length + sib.keys.length ≤ v.maxSize.toNat)
    (hlast : q ≠ parent.rightmostPtr) (hlen : parent.keys.length = 1) :
    Prog.Fails (merge p ((c, idx) :: rest)) t := by
  obtain ⟨ss, hss⟩ := BTreePage.values_of_isLeaf hss
  obtain ⟨ns, hns⟩ := BTreePage.values_of_isLeaf hleaf
  obtain ⟨-, hcount, -⟩ := hs.paired hc0 hc
  subst hidx
  have hq : sibPid cs node (decide ((0 : Int) = -1)) = .ok q := by simp [sibPid, hqn]
  obtain ⟨e, he⟩ := rightMergedParent_fails hcs hcount hlen p
  rw [Prog.Fails, merge_read hs hc0 hc hcs hp0 hp hq hsib]
  refine Prog.Fails.bind ?_ _
  have hkeep : ¬ (sib.keys.length = 0 ∨ node.keys.length + sib.keys.length > v.maxSize.toNat) := by
    omega
  rw [Prog.Fails, mergeNodes, if_pos hleaf, mergeLeafNodes]
  simp only [BTreePage.leafRecords, hss, hns, BTreePage.internalChildren, hcs, Prog.lift_ok_bind,
    Prog.get_bind, hs.maxSize, if_neg hkeep, if_neg hlast, he]
  exact ⟨e, t, rfl⟩

end Leaf

/-! ## Internal nodes -/

/-- The number of pointers does not wrap. -/
theorem totalPtrNum_eq (hs : Shows t v) (hp0 : p ≠ 0) (hp : v.node p = some node)
    (hsib : t.bpm.nodeAt q = some sib) : (node.keys.length + 1 + sib.keys.length + 1) % 65536 =
    node.keys.length + 1 + sib.keys.length + 1 := by
  have hn := (hs.paired hp0 hp).2.2
  have hsl := (Disk.nodeAt_paired hsib).2.2
  omega

/-- With the sibling to the left: the sibling is stored with the last separator and the node behind it. -/
theorem mergeInternalNodes_left (hs : Shows t v) (hp0 : p ≠ 0) (hp : v.node p = some node)
    (hsib : t.bpm.nodeAt q = some sib) (hinner : node.isLeaf = false) (hss : sib.isLeaf = false) {k : BTreeKey}
    (hk : parent.keys.getLast? = some k)
    (hle : node.keys.length + 1 + sib.keys.length + 1 ≤ v.maxSize.toNat + 1) (idx : Int) :
    (mergeInternalNodes ⟨node, p, sib, q, parent⟩ idx true : TreeM Disk _) t =
      (flushNode q (sib.absorbInner k node) >>= fun _ => pure
        (⟨node, p, sib.absorbInner k node, q,
          { parent with keys := parent.keys.dropLast, rightmostPtr := 0 }⟩, true)
          : TreeM Disk (LocalInfo × Bool)) t := by
  obtain ⟨ss, hss⟩ := BTreePage.values_of_not_isLeaf (by rw [hss]; simp)
  obtain ⟨ns, hns⟩ := BTreePage.values_of_not_isLeaf (by rw [hinner]; simp)
  have hlast : parent.keys[parent.keys.length - 1]? = some k := by
    rw [← List.getLast?_eq_getElem?, hk]
  have hkeep : ¬ v.maxSize.toNat + 1 < node.keys.length + 1 + sib.keys.length + 1 := by omega
  rw [mergeInternalNodes]
  simp only [Prog.get_bind, totalPtrNum_eq hs hp0 hp hsib, hs.maxSize, gt_iff_lt, if_neg hkeep,
    BTreePage.internalChildren, hss, hns, Prog.lift_ok_bind, if_true, vecAt_eq hlast,
    BTreePage.absorbInner_eq hss hns]

/-- With the sibling to the right: the merged node has a value less than it has keys. -/
theorem mergeInternalNodes_right (hs : Shows t v) (hp0 : p ≠ 0) (hp : v.node p = some node)
    (hsib : t.bpm.nodeAt q = some sib) (hinner : node.isLeaf = false)
    (hle : node.keys.length + 1 + sib.keys.length + 1 ≤ v.maxSize.toNat + 1) (idx : Int) :
    Prog.Fails (mergeInternalNodes ⟨node, p, sib, q, parent⟩ idx false) t := by
  obtain ⟨ns, hns⟩ := BTreePage.values_of_not_isLeaf (by rw [hinner]; simp)
  obtain ⟨-, hnc, -⟩ := hs.paired hp0 hp
  obtain ⟨-, hsc, -⟩ := Disk.nodeAt_paired hsib
  have hkeep : ¬ v.maxSize.toNat + 1 < node.keys.length + 1 + sib.keys.length + 1 := by omega
  rw [Prog.Fails, mergeInternalNodes]
  simp only [Prog.get_bind, totalPtrNum_eq hs hp0 hp hsib, hs.maxSize, gt_iff_lt, if_neg hkeep]
  by_cases hsl : sib.isLeaf = true
  · obtain ⟨ss, hss⟩ := BTreePage.values_of_isLeaf hsl
    simp only [BTreePage.internalChildren, hss]
    exact ⟨_, _, rfl⟩
  · obtain ⟨ss, hss⟩ := BTreePage.values_of_not_isLeaf (by simpa using hsl)
    simp only [BTreePage.internalChildren, hss, hns, Prog.lift_ok_bind, Bool.false_eq_true, if_false]
    cases hk : vecAt parent.keys idx.toNat with
    | error e => exact ⟨e, t, rfl⟩
    | ok k =>
      simp only [Prog.lift_ok_bind]
      cases hks : vecErase parent.keys idx.toNat with
      | error e => exact ⟨e, t, rfl⟩
      | ok ks =>
        simp only [Prog.lift_ok_bind]
        refine Prog.Fails.bind (flushNode_short ?_ p t) _
        simp only [BTreePage.valCount, List.length_append, List.length_singleton]
        rw [BTreePage.valCount_children hns] at hnc
        rw [BTreePage.valCount_children hss] at hsc
        omega

/-- Nodes that do not fit into one node are kept. -/
theorem mergeNodes_inner_keep (hs : Shows t v) (hp0 : p ≠ 0) (hp : v.node p = some node)
    (hinner : node.isLeaf = false) (hsib : t.bpm.nodeAt q = some sib)
    (hkeep : v.maxSize.toNat + 1 < node.keys.length + 1 + sib.keys.length + 1) (left : Bool) :
    mergeNodes ⟨node, p, sib, q, parent⟩ (c, idx) left t = (.ok ⟨node, p, sib, q, parent⟩, t) := by
  rw [mergeNodes, if_neg (by simp [hinner]), mergeInternalNodes]
  simp only [Prog.bind_assoc_apply, Prog.get_bind, totalPtrNum_eq hs hp0 hp hsib, hs.maxSize,
    if_pos hkeep]
  rfl

/-- The sibling to the left is stored, and then the parent. -/
theorem mergeNodes_inner_left (hs : Shows t v) (hp0 : p ≠ 0) (hp : v.node p = some node)
    (hinner : node.isLeaf = false) (hsib : t.bpm.nodeAt q = some sib) (hss : sib.isLeaf = false) {k : BTreeKey}
    (hk : parent.keys.getLast? = some k)
    (hle : node.keys.length + 1 + sib.keys.length + 1 ≤ v.maxSize.toNat + 1) :
    mergeNodes ⟨node, p, sib, q, parent⟩ (c, idx) true t =
      (flushNode q (sib.absorbInner k node) >>= fun _ => flushNode c
        { parent with keys := parent.keys.dropLast, rightmostPtr := 0 } >>= fun _ => pure
        ⟨node, p, sib.absorbInner k node, q,
          { parent with keys := parent.keys.dropLast, rightmostPtr := 0 }⟩ : TreeM Disk LocalInfo) t := by
  rw [mergeNodes, if_neg (by simp [hinner])]
  refine (Prog.bind_congr_left (mergeInternalNodes_left hs hp0 hp hsib hinner hss hk hle idx) _).trans ?_
  rw [Prog.bind_assoc_apply]
  rfl

section Inner

variable (hs : Shows t v) (hc0 : c ≠ 0) (hc : v.node c = some parent)
  (hcs : parent.values = .children cs) (hp0 : p ≠ 0) (hp : v.node p = some node)
  (hinner : node.isLeaf = false) (hq : sibPid cs node (idx = -1) = .ok q)
  (hsib : t.bpm.nodeAt q = some sib)

include hs hc0 hc hcs hp0 hp hinner hq hsib

/-- The internal nodes do not fit into one node. -/
theorem merge_inner_keep
    (hkeep : v.maxSize.toNat + 1 < node.keys.length + 1 + sib.keys.length + 1)
    (hfit : AllFit (merge p ((c, idx) :: rest) t).2) :
    ∃ root t', merge p ((c, idx) :: rest) t = mergeTail c parent root rest t' ∧
      AllFit (mergeTail c parent root rest t').2 ∧ Shows t' v := by
  obtain ⟨hpar, hcount, -⟩ := hs.paired hc0 hc
  have hmerge : mergeNodes ⟨node, p, sib, q, parent⟩ (c, idx) (idx = -1) t =
      (.ok ⟨node, p, sib, q, parent⟩, t) := mergeNodes_inner_keep hs hp0 hp hinner hsib hkeep _
  rw [merge_read hs hc0 hc hcs hp0 hp hq hsib, Prog.bind_ok hmerge] at hfit ⊢
  obtain ⟨t', hr, hfit', hs'⟩ := flushParent hs hc0 (hs.live_of_node hc0 hc) hpar hcount hfit
  rw [View.put_of_node hc] at hs'
  exact ⟨_, t', hr, hfit', hs'⟩

/-- The internal node is moved into the sibling to its left, below the last separator of the parent. -/
theorem merge_inner_left (hidx : idx = -1) (hq0 : q ≠ 0) (hssl : sib.isLeaf = false) {k : BTreeKey}
    (hk : parent.keys.getLast? = some k)
    (hle : node.keys.length + 1 + sib.keys.length + 1 ≤ v.maxSize.toNat + 1)
    (hfit : AllFit (merge p ((c, idx) :: rest) t).2) :
    ∃ t', merge p ((c, idx) :: rest) t = mergeTail c parent.demote q rest t' ∧
      AllFit (mergeTail c parent.demote q rest t').2 ∧
      Shows t' ((v.put q (sib.absorbInner k node)).put c parent.demote) := by
  have hqn : v.node q = some sib := (hs.node q hq0).symm.trans hsib
  obtain ⟨hpar, hcount, -⟩ := hs.paired hc0 hc
  have hklen : 1 ≤ k.length := hpar.1 k (List.mem_of_getLast? hk)
  obtain ⟨hab, habc⟩ := hs.absorbInner_paired hq0 hqn hp0 hp hssl hinner hklen
  obtain ⟨hdem, htrim⟩ := BTreePage.demote_paired hcs hpar hcount
  have hclive := hs.live_of_node hc0 hc
  subst hidx
  rw [merge_read hs hc0 hc hcs hp0 hp hq hsib] at hfit ⊢
  have hnodes : mergeNodes ⟨node, p, sib, q, parent⟩ (c, -1) (decide ((-1 : Int) = -1)) t = _ :=
    mergeNodes_inner_left hs hp0 hp hinner hsib hssl hk hle
  rw [Prog.bind_congr_left hnodes, Prog.bind_assoc_apply] at hfit ⊢
  obtain ⟨t₁, hr₁, hfit, hs₁⟩ := hs.flushNode_bind hq0 (hs.live_of_node hq0 hqn) hab hfit
    (.bind (.bind (.flushNode _ _) fun _ => .pure _) fun _ => .bind (.flushNode _ _) fun _ =>
      mergeTail_logged _ _ _ _)
  rw [Prog.bind_assoc_apply] at hfit
  obtain ⟨t₂, hr₂, hfit, hs₂⟩ := hs₁.flushNode_bind hc0 hclive hdem hfit
    (.bind (.pure _) fun _ => .bind (.flushNode _ _) fun _ => mergeTail_logged _ _ _ _)
  rw [Prog.pure_bind_apply] at hfit
  obtain ⟨t₃, hr₃, hfit, hs₃⟩ := hs₂.flushNode_bind hc0 hclive hdem hfit (mergeTail_logged _ _ _ _)
  rw [htrim] at hs₂ hs₃
  rw [BTreePage.trim_eq_self habc, View.put_of_node (View.put_node_same ..)] at hs₃
  have hkeys : ({ parent with keys := parent.keys.dropLast, rightmostPtr := 0 } : BTreePage).keys =
      parent.demote.keys := by
    rw [BTreePage.demote, hcs]
  refine ⟨t₃, ?_, ?_, hs₃⟩
  · rw [hr₁, Prog.bind_assoc_apply, hr₂, Prog.pure_bind_apply, hr₃]
    exact congrFun (mergeTail_congr hkeys c q rest) t₃
  · rw [← mergeTail_congr hkeys c q rest]
    exact hfit

/-- A merge with the sibling to the right. The merged node has a value less than it has keys. -/
theorem merge_inner_right_fails (hidx : idx = 0)
    (hle : node.keys.length + 1 + sib.keys.length + 1 ≤ v.maxSize.toNat + 1) :
    Prog.Fails (merge p ((c, idx) :: rest)) t := by
  subst hidx
  rw [Prog.Fails, merge_read hs hc0 hc hcs hp0 hp hq hsib]
  refine Prog.Fails.bind ?_ _
  rw [Prog.Fails, mergeNodes, if_neg (by simp [hinner])]
  exact Prog.Fails.bind (mergeInternalNodes_right hs hp0 hp hsib hinner hle 0) _

end Inner

/-! ## What comes before and after -/

/-- A merge that returned has read a sibling. -/
theorem merge_sibling (hs : Shows t v) (hc0 : c ≠ 0) (hc : v.node c = some parent)
    (hcs : parent.values = .children cs) (hp0 : p ≠ 0) (hp : v.node p = some node) {u : Unit}
    {t' : BTree Disk} (h : merge p ((c, idx) :: rest) t = (.ok u, t')) :
    ∃ q sib, sibPid cs node (idx = -1) = .ok q ∧ t.bpm.nodeAt q = some sib := by
  rw [merge, Prog.bind_ok (hs.getBtreePage_ok hc0 hc), BTreePage.internalChildren, hcs,
    Prog.lift_ok_bind, Prog.bind_ok (hs.getBtreePage_ok hp0 hp)] at h
  obtain ⟨q, hq, h⟩ := Prog.lift_bind_eq_ok h
  obtain ⟨sib, t₁, hsib, -⟩ := Prog.bind_eq_ok h
  rw [getBtreePage] at hsib
  obtain ⟨⟨q', sib'⟩, t₂, hfetch, hsib⟩ := Prog.bind_eq_ok hsib
  obtain ⟨-, -, hnode⟩ := Shows.fetchNode_inv hfetch
  cases hsib
  exact ⟨q, _, hq, hnode⟩

/-- What a merge of the leaf `node` at page `p` below the parent at page `c` can do: the view after it,
the parent as it is stored, and the page that becomes the root if the parent was the root and has no key
left. -/
inductive LeafMerge (v : View) (p c : PageId) (node parent : BTreePage) (idx : Int) :
    View → BTreePage → PageId → Prop
  | keep (root : PageId) : LeafMerge v p c node parent idx v parent root
  | left {cs : List PageId} {q : PageId} {sib : BTreePage} (hidx : idx = -1)
    (hcs : parent.values = .children cs) (hq : cs[cs.length - 1]? = some q) (hq0 : q ≠ 0)
    (hsib : v.node q = some sib) (hss : sib.isLeaf = true) (hsne : sib.keys.length ≠ 0)
    (hle : node.keys.length + sib.keys.length ≤ v.maxSize.toNat) :
    LeafMerge v p c node parent idx ((v.put q (sib.absorb node)).put c (parent.popLast q))
      (parent.popLast q) q
  | rightLast {sib : BTreePage} (hidx : idx = 0) (hlast : node.next = parent.rightmostPtr)
    (hq0 : node.next ≠ 0) (hsib : v.node node.next = some sib) (hss : sib.isLeaf = true)
    (hsne : sib.keys.length ≠ 0) (hle : node.keys.length + sib.keys.length ≤ v.maxSize.toNat) :
    LeafMerge v p c node parent idx ((v.put p (node.absorb sib)).put c { parent with rightmostPtr := 0 })
      { parent with rightmostPtr := 0 } p
  | right {sib : BTreePage} (hidx : idx = 0) (hlast : node.next ≠ parent.rightmostPtr)
    (hlen : 2 ≤ parent.keys.length) (hq0 : node.next ≠ 0) (hsib : v.node node.next = some sib)
    (hss : sib.isLeaf = true) (hsne : sib.keys.length ≠ 0)
    (hle : node.keys.length + sib.keys.length ≤ v.maxSize.toNat) :
    LeafMerge v p c node parent idx
      ((v.put p { node.absorb sib with next := sib.next }).put c (parent.popFirst p))
      (parent.popFirst p) p

/-- A merge of a leaf that returned did one of these. -/
theorem merge_leaf (hs : Shows t v) (hc0 : c ≠ 0) (hc : v.node c = some parent)
    (hinner : parent.isLeaf = false) (hne : parent.keys ≠ []) (hp0 : p ≠ 0) (hp : v.node p = some node)
    (hleaf : node.isLeaf = true) (hidx : idx = 0 ∨ idx = -1) {u : Unit} {t' : BTree Disk}
    (h : merge p ((c, idx) :: rest) t = (.ok u, t')) (hfit : AllFit t') :
    ∃ v₁ parent' root t₁, LeafMerge v p c node parent idx v₁ parent' root ∧ Shows t₁ v₁ ∧
      mergeTail c parent' root rest t₁ = (.ok u, t') := by
  obtain ⟨cs, hcs⟩ := BTreePage.values_of_not_isLeaf (by rw [hinner]; simp)
  obtain ⟨q, sib, hq, hsib⟩ := merge_sibling hs hc0 hc hcs hp0 hp h
  have hfit' : AllFit (merge p ((c, idx) :: rest) t).2 := by rwa [h]
  have hfails : ¬ Prog.Fails (merge p ((c, idx) :: rest)) t := fun hf => hf.ne_ok h
  cases hss : sib.isLeaf with
  | false => exact absurd (merge_leaf_mixed hs hc0 hc hcs hp0 hp hleaf hq hsib hss) hfails
  | true =>
    by_cases hkeep : sib.keys.length = 0 ∨ node.keys.length + sib.keys.length > v.maxSize.toNat
    · obtain ⟨root, t₁, hr, -, hs₁⟩ := merge_leaf_keep hs hc0 hc hcs hp0 hp hleaf hq hsib hss hkeep hfit'
      exact ⟨v, parent, root, t₁, .keep root, hs₁, hr.symm.trans h⟩
    · obtain ⟨hsne, hle⟩ := not_or.mp hkeep
      have hle := Nat.le_of_not_lt hle
      obtain ⟨hq0, hqn⟩ := sib_ne_zero hs hsib hsne
      rcases hidx with hidx | hidx
      · have hnext : node.next = q := by
          rw [hidx] at hq
          simpa [sibPid] using hq
        subst hnext
        by_cases hlast : node.next = parent.rightmostPtr
        · obtain ⟨t₁, hr, -, hs₁⟩ := merge_leaf_right_last hs hc0 hc hcs hp0 hp hleaf hsib hidx rfl hss
            hsne hle hlast hfit'
          exact ⟨_, _, _, t₁, .rightLast hidx hlast hq0 hqn hss hsne hle, hs₁, hr.symm.trans h⟩
        · have hpos := List.length_pos_iff.mpr hne
          by_cases hlen : parent.keys.length = 1
          · exact absurd (merge_leaf_right_fails hs hc0 hc hcs hp0 hp hleaf hsib hidx rfl hss hsne hle
              hlast hlen) hfails
          · obtain ⟨t₁, hr, -, hs₁⟩ := merge_leaf_right hs hc0 hc hcs hp0 hp hleaf hsib hidx rfl hss
              hsne hle hlast (by omega) hfit'
            exact ⟨_, _, _, t₁, .right hidx hlast (by omega) hq0 hqn hss hsne hle, hs₁, hr.symm.trans h⟩
      · have hlast : cs[cs.length - 1]? = some q := by
          rw [hidx] at hq
          exact getElem?_of_vecAt (by simpa [sibPid] using hq)
        obtain ⟨t₁, hr, -, hs₁⟩ := merge_leaf_left hs hc0 hc hcs hp0 hp hleaf hq hsib hidx hss hne hsne
          hle hfit'
        exact ⟨_, _, _, t₁, .left hidx hcs hlast hq0 hqn hss hsne hle, hs₁, hr.symm.trans h⟩

/-- What a merge of the internal node `node` can do below the parent at page `c`. -/
inductive InnerMerge (v : View) (c : PageId) (node parent : BTreePage) (idx : Int) :
    View → BTreePage → PageId → Prop
  | keep (root : PageId) : InnerMerge v c node parent idx v parent root
  | left {cs : List PageId} {q : PageId} {sib : BTreePage} {k : BTreeKey} (hidx : idx = -1)
    (hcs : parent.values = .children cs) (hq : cs[cs.length - 1]? = some q) (hq0 : q ≠ 0)
    (hsib : v.node q = some sib) (hss : sib.isLeaf = false) (hk : parent.keys.getLast? = some k)
    (hle : node.keys.length + 1 + sib.keys.length + 1 ≤ v.maxSize.toNat + 1) :
    InnerMerge v c node parent idx ((v.put q (sib.absorbInner k node)).put c parent.demote)
      parent.demote q

/-- A merge of an internal node that returned did one of these, if its siblings are internal nodes. -/
theorem merge_inner (hs : Shows t v) (hc0 : c ≠ 0) (hc : v.node c = some parent)
    (hcs : parent.values = .children cs) (hne : parent.keys ≠ [])
    (hchild : ∀ q ∈ cs, q ≠ 0 ∧ ∃ n, v.node q = some n ∧ n.isLeaf = false) (hp0 : p ≠ 0)
    (hp : v.node p = some node) (hinner : node.isLeaf = false) (hidx : idx = 0 ∨ idx = -1) {u : Unit}
    {t' : BTree Disk} (h : merge p ((c, idx) :: rest) t = (.ok u, t')) (hfit : AllFit t') :
    ∃ v₁ parent' root t₁, InnerMerge v c node parent idx v₁ parent' root ∧ Shows t₁ v₁ ∧
      mergeTail c parent' root rest t₁ = (.ok u, t') := by
  obtain ⟨q, sib, hq, hsib⟩ := merge_sibling hs hc0 hc hcs hp0 hp h
  have hfit' : AllFit (merge p ((c, idx) :: rest) t).2 := by rwa [h]
  by_cases hkeep : v.maxSize.toNat + 1 < node.keys.length + 1 + sib.keys.length + 1
  · obtain ⟨root, t₁, hr, -, hs₁⟩ := merge_inner_keep hs hc0 hc hcs hp0 hp hinner hq hsib hkeep hfit'
    exact ⟨v, parent, root, t₁, .keep root, hs₁, hr.symm.trans h⟩
  · have hle := Nat.le_of_not_lt hkeep
    rcases hidx with hidx | hidx
    · exact absurd h
        (merge_inner_right_fails hs hc0 hc hcs hp0 hp hinner hq hsib hidx hle).ne_ok
    · have hlast : cs[cs.length - 1]? = some q := by
        rw [hidx] at hq
        exact getElem?_of_vecAt (by simpa [sibPid] using hq)
      obtain ⟨hq0, n, hqn, hnl⟩ := hchild q (List.mem_of_getElem? hlast)
      have hn : sib = n := Option.some.inj ((hsib.symm.trans (hs.node q hq0)).trans hqn)
      subst hn
      have hk := List.getLast?_eq_some_getLast hne
      obtain ⟨t₁, hr, -, hs₁⟩ := merge_inner_left hs hc0 hc hcs hp0 hp hinner hq hsib hidx hq0 hnl hk hle
        hfit'
      exact ⟨_, _, _, t₁, .left hidx hcs hlast hq0 hqn hnl hk hle, hs₁, hr.symm.trans h⟩

/-- The root keeps a key. -/
theorem mergeTail_nil_of_ne (hne : parent.keys ≠ []) (root : PageId) :
    mergeTail c parent root [] t = (.ok (), t) := by
  rw [mergeTail, if_neg (fun h => hne (List.length_eq_zero_iff.mp h))]
  rfl

/-- The root has no key left: the page `root` becomes the root, also on disk. -/
theorem mergeTail_nil_of_eq (hs : Shows t v) (hnil : parent.keys = []) (root : PageId) :
    ∃ t', mergeTail c parent root [] t = (.ok (), t') ∧
      Shows t' ({ v with rootPid := root } : View).syncMeta := by
  obtain ⟨t', hr, hs'⟩ := (hs.setRoot root).flushMeta_ok
  refine ⟨t', ?_, hs'⟩
  rw [mergeTail, if_pos (by rw [hnil]; rfl), Prog.modify_bind]
  exact hr

end Level

end BTree

/-! ## Taking a record out of its leaf -/

/-- The leaf `n` without the record at `i`. -/
def BTreePage.dropRecord (n : BTreePage) (i : Nat) : BTreePage :=
  match n.values with
  | .records rs => { n with keys := n.keys.eraseIdx i, values := .records (rs.eraseIdx i) }
  | .children _ => n

section Remove

variable {t : BTree Disk} {v : View} {key : BTreeKey} {p : PageId} {leaf : BTreePage}
  {crumbs : List Crumb}

theorem BTreePage.dropRecord_eq {n : BTreePage} {rs : List RID} (hv : n.values = .records rs) (i : Nat) :
    n.dropRecord i = { n with keys := n.keys.eraseIdx i, values := .records (rs.eraseIdx i) } := by
  simp [dropRecord, hv]

theorem BTreePage.dropRecord_isLeaf {n : BTreePage} (hl : n.isLeaf = true) (i : Nat) :
    (n.dropRecord i).isLeaf = true := by
  obtain ⟨rs, hv⟩ := values_of_isLeaf hl
  rw [dropRecord_eq hv]
  rfl

theorem BTreePage.dropRecord_paired {n : BTreePage} (hl : n.isLeaf = true) (hp : n.Paired)
    (hc : n.valCount = n.keys.length) (i : Nat) :
    (n.dropRecord i).Paired ∧ (n.dropRecord i).valCount = (n.dropRecord i).keys.length := by
  obtain ⟨rs, hv⟩ := values_of_isLeaf hl
  have hrs : rs.length = n.keys.length := (valCount_records hv).symm.trans hc
  have hcount : (n.dropRecord i).valCount = (n.dropRecord i).keys.length := by
    rw [dropRecord_eq hv, valCount_records rfl, List.length_eraseIdx, List.length_eraseIdx, hrs]
  refine ⟨⟨fun k hk => ?_, Nat.le_of_eq hcount.symm⟩, hcount⟩
  rw [dropRecord_eq hv] at hk
  exact hp.1 k (List.mem_of_mem_eraseIdx hk)

/-- What `remove` goes on with once the record is gone. -/
def BTree.removeTail (p : PageId) : List Crumb → TreeM Disk Unit
  | [] => pure ()
  | c :: crumbs => BTree.merge p (c :: crumbs)

theorem keyIndex_lt {keys : List BTreeKey} : BTree.keyIndex keys key < keys.length ↔ key ∈ keys := by
  rw [BTree.keyIndex, List.findIdx_lt_length]
  simp

/-- The search has ended at a leaf that does not hold the key. -/
theorem remove_fails {t' : BTree Disk} (hfind : BTree.findLeaf key t = (.ok (p, leaf, crumbs), t'))
    (hkey : key ∉ leaf.keys) : Prog.Fails (BTree.remove key) t := by
  rw [Prog.Fails, BTree.remove, Prog.bind_ok hfind]
  simp only
  cases hrec : leaf.leafRecords with
  | error e => exact ⟨e, t', rfl⟩
  | ok rs =>
    rw [Prog.lift_ok_bind, vecErase_of_not_lt (fun h => hkey (keyIndex_lt.mp h))]
    exact ⟨_, t', rfl⟩

/-- What a removal does with a key of the leaf at the end of the path. -/
theorem remove_eq (hs : Shows t v) (hpath : Path v key v.rootPid p leaf crumbs)
    (hlen : crumbs.length < 2 ^ 32) (hkey : key ∈ leaf.keys) :
    BTree.remove key t =
      (BTree.flushNode p (leaf.dropRecord (BTree.keyIndex leaf.keys key)) >>= fun _ =>
        BTree.removeTail p crumbs) t := by
  obtain ⟨hp0, hpn, hleaf⟩ := hpath.leaf_spec
  obtain ⟨rs, hrs⟩ := BTreePage.values_of_isLeaf hleaf
  obtain ⟨-, hcount, -⟩ := hs.paired hp0 hpn
  have hlt := keyIndex_lt.mpr hkey
  have hlt' : BTree.keyIndex leaf.keys key < rs.length := by
    rwa [← BTreePage.valCount_records hrs, hcount]
  rw [BTree.remove, Prog.bind_ok (findLeaf_of_path hs hpath hlen)]
  simp only [BTreePage.leafRecords, hrs, Prog.lift_ok_bind, vecErase_of_lt hlt, vecErase_of_lt hlt',
    BTreePage.dropRecord_eq hrs]
  cases crumbs <;> rfl

/-- The record is taken out of the leaf at the end of the path. -/
theorem remove_start (hs : Shows t v) (hpath : Path v key v.rootPid p leaf crumbs)
    (hlen : crumbs.length < 2 ^ 32) (hkey : key ∈ leaf.keys)
    (hfit : AllFit (BTree.remove key t).2) :
    ∃ t₁, BTree.remove key t = BTree.removeTail p crumbs t₁ ∧
      AllFit (BTree.removeTail p crumbs t₁).2 ∧
      Shows t₁ (v.put p (leaf.dropRecord (BTree.keyIndex leaf.keys key))) := by
  obtain ⟨hp0, hpn, hleaf⟩ := hpath.leaf_spec
  obtain ⟨hpair, hcount, -⟩ := hs.paired hp0 hpn
  obtain ⟨hpair', hcount'⟩ := BTreePage.dropRecord_paired hleaf hpair hcount
    (BTree.keyIndex leaf.keys key)
  have hlog : Logged (BTree.removeTail p crumbs) := by
    cases crumbs with
    | nil => exact .pure _
    | cons c crumbs => exact .merge _ _
  rw [remove_eq hs hpath hlen hkey] at hfit ⊢
  obtain ⟨t₁, hr₁, hfit₁, hs₁⟩ := hs.flushNode_bind hp0 (hs.live_of_node hp0 hpn) hpair' hfit hlog
  rw [BTreePage.trim_eq_self hcount'] at hs₁
  exact ⟨t₁, hr₁, hfit₁, hs₁⟩

/-- A removal that returned took the record out of the leaf at the end of the path. -/
theorem remove_eq_ok (hs : Shows t v) (hpath : Path v key v.rootPid p leaf crumbs)
    (hlen : crumbs.length < 2 ^ 32) {u : Unit} {t' : BTree Disk} (h : BTree.remove key t = (.ok u, t'))
    (hfit : AllFit t') :
    key ∈ leaf.keys ∧ ∃ t₁, Shows t₁ (v.put p (leaf.dropRecord (BTree.keyIndex leaf.keys key))) ∧
      BTree.removeTail p crumbs t₁ = (.ok u, t') := by
  have hkey : key ∈ leaf.keys := by
    by_contra hkey
    exact (remove_fails (findLeaf_of_path hs hpath hlen) hkey).ne_ok h
  obtain ⟨t₁, hr, -, hs₁⟩ := remove_start hs hpath hlen hkey (by rwa [h])
  exact ⟨hkey, t₁, hs₁, hr.symm.trans h⟩

end Remove

end SomeDB
