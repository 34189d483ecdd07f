import SomeDB.Index.Merge
import SomeDB.Index.NodeSize

/-!
# One level of a merge, run

The lemmas of `Index.Merge` take a run whose nodes all fit in their pages in the end. Here it is the parent and
the merged node that fit. Then the level completes, what it stores fits, and `merge` goes on with `mergeTail`.
-/

namespace SomeDB

open Lib

namespace BTreePage

theorem popLast_fits {n : BTreePage} {cs : List PageId} (hcs : n.values = .children cs) (h : n.FitsPage)
    (q : PageId) : (n.popLast q).FitsPage := by
  rw [popLast_eq hcs]
  exact h.sublist (by simp [isLeaf, hcs]) n.keys.dropLast_sublist

theorem popFirst_fits {n : BTreePage} {cs : List PageId} (hcs : n.values = .children cs) (h : n.FitsPage)
    (p : PageId) : (n.popFirst p).FitsPage := by
  rw [popFirst_eq hcs]
  exact h.sublist (by simp [isLeaf, hcs]) n.keys.tail_sublist

end BTreePage

namespace BTree

variable {t : BTree Disk} {v : View} {p c q : PageId} {node parent sib : BTreePage} {cs : List PageId}
  {idx : Int} {rest : List Crumb}

theorem flushParent_fit (hs : ShowsFit t v) (hc0 : c ≠ 0) (hlive : v.live c = true) (hp : parent.Paired)
    (hv : parent.valCount = parent.keys.length) (hfit : parent.FitsPage) (root : PageId) :
    ∃ t', (do
        flushNode c parent
        mergeTail c parent root rest : TreeM Disk Unit) t = mergeTail c parent root rest t' ∧
      ShowsFit t' (v.put c parent) := by
  obtain ⟨t', hr, hs'⟩ := flushNode_fit hs hc0 hlive hp hfit
  rw [BTreePage.trim_eq_self hv] at hs'
  exact ⟨t', Prog.bind_ok hr, hs'⟩

/-- The node `n` is stored in page `w`, and then the parent. -/
theorem merge_write_fit (hs : ShowsFit t v) (hc0 : c ≠ 0) (hc : v.node c = some parent) {w : PageId}
    {n : BTreePage} {loc : LocalInfo} {m : TreeM Disk LocalInfo}
    (hm : m t = (flushNode w n >>= fun _ => pure loc : TreeM Disk LocalInfo) t) (hw0 : w ≠ 0)
    (hwl : v.live w = true) (hn : n.Paired) (hnc : n.valCount = n.keys.length) (hnf : n.FitsPage)
    (hp' : loc.parent.Paired) (hpc : loc.parent.valCount = loc.parent.keys.length)
    (hpf : loc.parent.FitsPage) (root : LocalInfo → PageId) :
    ∃ t', (m >>= fun loc => do
        flushNode c loc.parent
        mergeTail c loc.parent (root loc) rest : TreeM Disk Unit) t =
        mergeTail c loc.parent (root loc) rest t' ∧
      ShowsFit t' ((v.put w n).put c loc.parent) := by
  obtain ⟨t₁, hr₁, hs₁⟩ := flushNode_fit hs hw0 hwl hn hnf
  rw [BTreePage.trim_eq_self hnc] at hs₁
  rw [Prog.bind_congr_left hm, Prog.bind_assoc_apply, Prog.bind_ok hr₁]
  exact flushParent_fit hs₁ hc0 (hs.live_of_node hc0 hc) hp' hpc hpf _

section Level

variable (hs : ShowsFit t v) (hc0 : c ≠ 0) (hc : v.node c = some parent)
  (hcs : parent.values = .children cs) (hpf : parent.FitsPage) (hp0 : p ≠ 0) (hp : v.node p = some node)
  (hq : sibPid cs node (idx = -1) = .ok q) (hq0 : q ≠ 0) (hqn : v.node q = some sib)

include hs hc0 hc hcs hpf hp0 hp hq hq0 hqn

section Leaf

variable (hleaf : node.isLeaf = true) (hss : sib.isLeaf = true)

include hleaf hss

theorem merge_leaf_keep_fit
    (hkeep : sib.keys.length = 0 ∨ node.keys.length + sib.keys.length > v.maxSize.toNat) (rest : List Crumb) :
    ∃ root t', merge p ((c, idx) :: rest) t = mergeTail c parent root rest t' ∧ ShowsFit t' v := by
  obtain ⟨hpar, hcount, -⟩ := hs.paired hc0 hc
  have hmerge : mergeNodes ⟨node, p, sib, q, parent⟩ (c, idx) (idx = -1) t =
      (.ok ⟨node, p, sib, q, parent⟩, t) := mergeNodes_leaf_keep hs.shows hcs hleaf hss hkeep _
  rw [merge_read hs.shows hc0 hc hcs hp0 hp hq ((hs.node q hq0).trans hqn), Prog.bind_ok hmerge]
  obtain ⟨t', hr, hs'⟩ := flushParent_fit hs hc0 (hs.live_of_node hc0 hc) hpar hcount hpf _
  rw [View.put_of_node hc] at hs'
  exact ⟨_, t', hr, hs'⟩

variable (hsne : sib.keys.length ≠ 0) (hle : node.keys.length + sib.keys.length ≤ v.maxSize.toNat)

include hsne hle

theorem merge_leaf_left_fit (hidx : idx = -1) (hne : parent.keys ≠ []) (hfit : (sib.absorb node).FitsPage)
    (rest : List Crumb) :
    ∃ t', merge p ((c, idx) :: rest) t = mergeTail c (parent.popLast q) q rest t' ∧
      ShowsFit t' ((v.put q (sib.absorb node)).put c (parent.popLast q)) := by
  obtain ⟨hpar, hcount, -⟩ := hs.paired hc0 hc
  obtain ⟨hab, habc⟩ := hs.shows.absorb_paired hq0 hqn hp0 hp hss hleaf
  obtain ⟨hpop, hpopc⟩ := BTreePage.popLast_paired hcs hpar hcount q
  subst hidx
  have hmerge : mergeNodes ⟨node, p, sib, q, parent⟩ (c, -1) true t = _ :=
    mergeNodes_leaf_left hs.shows hcs hleaf hss hsne hle hc0 hc hne
  rw [merge_read hs.shows hc0 hc hcs hp0 hp hq ((hs.node q hq0).trans hqn)]
  exact merge_write_fit hs hc0 hc hmerge hq0 (hs.live_of_node hq0 hqn) hab habc hfit hpop hpopc
    (BTreePage.popLast_fits hcs hpf q) _

omit hq in
theorem merge_leaf_right_fit (hidx : idx = 0) (hnext : node.next = q) (hlast : q ≠ parent.rightmostPtr)
    (hlen : 2 ≤ parent.keys.length) (hfit : (node.absorb sib).FitsPage) (rest : List Crumb) :
    ∃ t', merge p ((c, idx) :: rest) t = mergeTail c (parent.popFirst p) p rest t' ∧
      ShowsFit t' ((v.put p { node.absorb sib with next := sib.next }).put c (parent.popFirst p)) := by
  obtain ⟨hpar, hcount, -⟩ := hs.paired hc0 hc
  obtain ⟨hab, habc⟩ := hs.shows.absorb_paired hp0 hp hq0 hqn hleaf hss
  obtain ⟨hpop, hpopc⟩ := BTreePage.popFirst_paired hcs hpar hcount p
  subst hidx
  have hq : sibPid cs node (decide ((0 : Int) = -1)) = .ok q := by simp [sibPid, hnext]
  have hmerge : mergeNodes ⟨node, p, sib, q, parent⟩ (c, 0) false t = _ :=
    mergeNodes_leaf_right hs.shows hcs hleaf hss hsne hle hc0 hc rfl hlast hlen
  rw [merge_read hs.shows hc0 hc hcs hp0 hp hq ((hs.node q hq0).trans hqn)]
  exact merge_write_fit hs hc0 hc hmerge hp0 (hs.live_of_node hp0 hp) hab habc hfit hpop hpopc
    (BTreePage.popFirst_fits hcs hpf p) _

end Leaf

section Inner

variable (hinner : node.isLeaf = false)

include hinner

theorem merge_inner_keep_fit
    (hkeep : v.maxSize.toNat + 1 < node.keys.length + 1 + sib.keys.length + 1) (rest : List Crumb) :
    ∃ root t', merge p ((c, idx) :: rest) t = mergeTail c parent root rest t' ∧ ShowsFit t' v := by
  obtain ⟨hpar, hcount, -⟩ := hs.paired hc0 hc
  have hmerge : mergeNodes ⟨node, p, sib, q, parent⟩ (c, idx) (idx = -1) t =
      (.ok ⟨node, p, sib, q, parent⟩, t) :=
    mergeNodes_inner_keep hs.shows hp0 hp hinner ((hs.node q hq0).trans hqn) hkeep _
  rw [merge_read hs.shows hc0 hc hcs hp0 hp hq ((hs.node q hq0).trans hqn), Prog.bind_ok hmerge]
  obtain ⟨t', hr, hs'⟩ := flushParent_fit hs hc0 (hs.live_of_node hc0 hc) hpar hcount hpf _
  rw [View.put_of_node hc] at hs'
  exact ⟨_, t', hr, hs'⟩

theorem merge_inner_left_fit (hidx : idx = -1) (hss : sib.isLeaf = false) {k : BTreeKey}
    (hk : parent.keys.getLast? = some k)
    (hle : node.keys.length + 1 + sib.keys.length + 1 ≤ v.maxSize.toNat + 1)
    (hfit : (sib.absorbInner k node).FitsPage) (rest : List Crumb) :
    ∃ t', merge p ((c, idx) :: rest) t = mergeTail c parent.demote q rest t' ∧
      ShowsFit t' ((v.put q (sib.absorbInner k node)).put c parent.demote) := by
  obtain ⟨hpar, hcount, -⟩ := hs.paired hc0 hc
  have hklen : 1 ≤ k.length := hpar.1 k (List.mem_of_getLast? hk)
  obtain ⟨hab, habc⟩ := hs.shows.absorbInner_paired hq0 hqn hp0 hp hss hinner hklen
  obtain ⟨hdem, htrim⟩ := BTreePage.demote_paired hcs hpar hcount
  have hdfit : ({ parent with keys := parent.keys.dropLast, rightmostPtr := 0 } : BTreePage).FitsPage :=
    hpf.sublist rfl parent.keys.dropLast_sublist
  have hclive := hs.live_of_node hc0 hc
  subst hidx
  have hmerge : mergeNodes ⟨node, p, sib, q, parent⟩ (c, -1) (decide ((-1 : Int) = -1)) t = _ :=
    mergeNodes_inner_left hs.shows hp0 hp hinner ((hs.node q hq0).trans hqn) hss hk hle
  -- the sibling is stored once, the parent twice
  obtain ⟨t₁, hr₁, hs₁⟩ := flushNode_fit hs hq0 (hs.live_of_node hq0 hqn) hab hfit
  obtain ⟨t₂, hr₂, hs₂⟩ := flushNode_fit hs₁ hc0 hclive hdem hdfit
  obtain ⟨t₃, hr₃, hs₃⟩ := flushNode_fit hs₂ hc0 hclive hdem hdfit
  rw [htrim] at hs₂ hs₃
  rw [BTreePage.trim_eq_self habc, View.put_of_node (View.put_node_same ..)] at hs₃
  have hkeys : ({ parent with keys := parent.keys.dropLast, rightmostPtr := 0 } : BTreePage).keys =
      parent.demote.keys := by
    rw [BTreePage.demote, hcs]
  refine ⟨t₃, ?_, hs₃⟩
  rw [merge_read hs.shows hc0 hc hcs hp0 hp hq ((hs.node q hq0).trans hqn), Prog.bind_congr_left hmerge,
    Prog.bind_assoc_apply, Prog.bind_ok hr₁, Prog.bind_assoc_apply, Prog.bind_ok hr₂, Prog.pure_bind_apply,
    Prog.bind_ok hr₃]
  exact congrFun (mergeTail_congr hkeys c q rest) t₃

end Inner

end Level

/-- The node that a merge stores first fits, if every node does in the end. -/
theorem merge_write_fits (hs : Shows t v) (hc0 : c ≠ 0) (hc : v.node c = some parent)
    (hcs : parent.values = .children cs) (hp0 : p ≠ 0) (hp : v.node p = some node)
    (hq : sibPid cs node (idx = -1) = .ok q) (hq0 : q ≠ 0) (hqn : v.node q = some sib)
    (hfit : AllFit (merge p ((c, idx) :: rest) t).2) {w : PageId} {n : BTreePage} {f : Unit → TreeM Disk LocalInfo}
    (hf : Logged (f ()))
    (hm : mergeNodes ⟨node, p, sib, q, parent⟩ (c, idx) (idx = -1) t = (flushNode w n >>= f) t) : n.FitsPage := by
  rw [merge_read hs hc0 hc hcs hp0 hp hq ((hs.node q hq0).trans hqn), Prog.bind_congr_left hm,
    Prog.bind_assoc_apply] at hfit
  exact AllFit.head (.bind hf fun _ => .bind (.flushNode _ _) fun _ => mergeTail_logged _ _ _ _) hfit

/-- What is left of a merge keeps the nodes that fit. -/
theorem showsFit_of_tail {root : PageId} {u : Unit} {t' : BTree Disk} (hs : Shows t v)
    (htail : mergeTail c parent root rest t = (.ok u, t')) (hfit : AllFit t') : ShowsFit t v := by
  have hlog := mergeTail_logged c parent root rest t
  rw [htail] at hlog
  exact ⟨hs, hlog.allFit hfit⟩

end BTree

end SomeDB
