import SomeDB.Index.Split

/-!
# What one insertion can do

`InsertStep` lists everything that `insert` can do once the leaf is found and no node other than the
root overflows: nothing, because the key is there; storing the leaf; splitting the leaf that is the
root; splitting a leaf below its parent; and that together with a split of the parent, which is the
root. `insert_step`: `insert` does one of these, or it fails because the counter of pages wraps. What
holds over runs of insertions is derived from these five cases.
-/

namespace SomeDB

open Lib

/-- The leaf `n` with the record put in at `i`. -/
def BTreePage.addRecord (n : BTreePage) (i : Nat) (key : BTreeKey) (val : RID) : BTreePage :=
  match n.values with
  | .records rs => { n with keys := putAt n.keys i key, values := .records (putAt rs i val) }
  | .children _ => n

/-- What `insert` does to the view when it finds `leaf` at page `p`, and what it returns. -/
inductive InsertStep (v : View) (key : BTreeKey) (val : RID) (p : PageId) (leaf : BTreePage) :
    List Crumb → PageId → View → Prop
  | duplicate {crumbs : List Crumb} (hdup : ∃ k ∈ leaf.keys, cmpKeys k key = 0) :
    InsertStep v key val p leaf crumbs 0 v
  | room {crumbs : List Crumb} {i : Nat} (hnew : ∀ k ∈ leaf.keys, cmpKeys k key ≠ 0)
    (hi : PlaceOf key leaf.keys i) (hroom : leaf.keys.length < v.maxSize.toNat) :
    InsertStep v key val p leaf crumbs p (v.put p (leaf.addRecord i key val))
  | splitRoot {i : Nat} {mid : BTreeKey} {u w : Uninit} (hnew : ∀ k ∈ leaf.keys, cmpKeys k key ≠ 0)
    (hi : PlaceOf key leaf.keys i) (hfull : v.maxSize.toNat ≤ leaf.keys.length)
    (hmid : (putAt leaf.keys i key)[(leaf.keys.length + 1) / 2]? = some mid)
    (hcount : v.diskCount.toNat + 2 < 65536) :
    InsertStep v key val p leaf [] p (v.splitRoot (leaf.addRecord i key val) mid u w)
  | splitLeaf {crumbs : List Crumb} {c : PageId} {idx : Int} {i j : Nat} {mid : BTreeKey} {u : Uninit}
    {parent : BTreePage} (hnew : ∀ k ∈ leaf.keys, cmpKeys k key ≠ 0) (hi : PlaceOf key leaf.keys i)
    (hfull : v.maxSize.toNat ≤ leaf.keys.length)
    (hmid : (putAt leaf.keys i key)[(leaf.keys.length + 1) / 2]? = some mid)
    (hcount : v.diskCount.toNat + 1 < 65536) (hc : v.node c = some parent)
    (hj : PlaceOf mid parent.keys j) (hroom : parent.keys.length < v.maxSize.toNat) :
    InsertStep v key val p leaf ((c, idx) :: crumbs) p
      (v.splitLeaf p (leaf.addRecord i key val) c (parent.addChild j mid p v.newId) u)
  | splitBoth {c : PageId} {idx : Int} {i j : Nat} {mid mid' : BTreeKey} {u u' w : Uninit}
    {parent : BTreePage} (hnew : ∀ k ∈ leaf.keys, cmpKeys k key ≠ 0) (hi : PlaceOf key leaf.keys i)
    (hfull : v.maxSize.toNat ≤ leaf.keys.length)
    (hmid : (putAt leaf.keys i key)[(leaf.keys.length + 1) / 2]? = some mid)
    (hcount : v.diskCount.toNat + 3 < 65536) (hc : v.node c = some parent) (hroot : v.rootPid = c)
    (hj : PlaceOf mid parent.keys j) (hover : v.maxSize.toNat ≤ parent.keys.length)
    (hmid' : (putAt parent.keys j mid)[(parent.keys.length + 1) / 2]? = some mid') :
    InsertStep v key val p leaf [(c, idx)] p
      ((v.splitLeaf p (leaf.addRecord i key val) c (parent.addChild j mid p v.newId) u).splitRoot
        (parent.addChild j mid p v.newId) mid' u' w)

/-- No node other than the root overflows when the leaf at the end of `crumbs` is split. -/
def NoInnerOverflow (v : View) (leaf : BTreePage) : List Crumb → Prop
  | top :: _ :: _ => v.maxSize.toNat ≤ leaf.keys.length →
    ∃ parent, v.node top.1 = some parent ∧ parent.keys.length < v.maxSize.toNat
  | _ => True

/-! ## Getting there -/

section Step

variable {t : BTree Disk} {v : View} {key : BTreeKey} {val : RID}

namespace BTreePage

theorem addRecord_eq {n : BTreePage} {rs : List RID} (hv : n.values = .records rs) (i : Nat)
    (key : BTreeKey) (val : RID) : n.addRecord i key val =
      { n with keys := putAt n.keys i key, values := .records (putAt rs i val) } := by
  simp [addRecord, hv]

theorem addRecord_isLeaf {n : BTreePage} (hl : n.isLeaf = true) (i : Nat) (key : BTreeKey) (val : RID) :
    (n.addRecord i key val).isLeaf = true := by
  obtain ⟨rs, hv⟩ := values_of_isLeaf hl
  rw [addRecord_eq hv]
  rfl

theorem addRecord_keys {n : BTreePage} (hl : n.isLeaf = true) (i : Nat) (key : BTreeKey) (val : RID) :
    (n.addRecord i key val).keys = putAt n.keys i key := by
  obtain ⟨rs, hv⟩ := values_of_isLeaf hl
  rw [addRecord_eq hv]

theorem addRecord_paired {n : BTreePage} (hl : n.isLeaf = true) (hp : n.Paired)
    (hc : n.valCount = n.keys.length) {i : Nat} (hi : i ≤ n.keys.length) (hk : 1 ≤ key.length)
    (val : RID) : (n.addRecord i key val).Paired ∧
      (n.addRecord i key val).valCount = (n.addRecord i key val).keys.length := by
  obtain ⟨rs, hv⟩ := values_of_isLeaf hl
  have hrs : rs.length = n.keys.length := (valCount_records hv).symm.trans hc
  have hcount : (n.addRecord i key val).valCount = (n.addRecord i key val).keys.length := by
    rw [addRecord_eq hv, valCount_records rfl, putAt_length _ _ hi, putAt_length _ _ (by omega), hrs]
  refine ⟨⟨fun k hk' => ?_, Nat.le_of_eq hcount.symm⟩, hcount⟩
  rw [addRecord_keys hl] at hk'
  rcases mem_putAt.mp hk' with rfl | hk'
  · exact hk
  · exact hp.1 k hk'

/-- A leaf with a record put in has a middle key. -/
theorem addRecord_mid {n : BTreePage} (hl : n.isLeaf = true) {i : Nat} (hi : i ≤ n.keys.length)
    (key : BTreeKey) (val : RID) :
    (n.addRecord i key val).keys.length = n.keys.length + 1 ∧
      ∃ mid, (putAt n.keys i key)[(n.keys.length + 1) / 2]? = some mid ∧
        (n.addRecord i key val).keys[(n.addRecord i key val).keys.length / 2]? = some mid := by
  have hlen : (n.addRecord i key val).keys.length = n.keys.length + 1 := by
    rw [addRecord_keys hl, putAt_length _ _ hi]
  have hlt : (n.keys.length + 1) / 2 < (putAt n.keys i key).length := by
    rw [putAt_length _ _ hi]; omega
  refine ⟨hlen, _, List.getElem?_eq_getElem hlt, ?_⟩
  rw [hlen, addRecord_keys hl]
  exact List.getElem?_eq_getElem hlt

end BTreePage

/-- The first or the second of two new pages gets the id 0 only at the end of the ids. -/
theorem View.diskCount_of_wrap {isLeaf : Bool} (h : v.newId = 0 ∨ (v.addPage isLeaf).newId = 0) :
    65534 ≤ v.diskCount.toNat := by
  rcases h with h0 | h0
  · have hlast := View.diskCount_of_newId h0
    omega
  · have hlast := View.diskCount_of_newId h0
    simp only [View.addPage_diskCount, UInt16.toNat_add, UInt16.toNat_one] at hlast
    omega

/-- The leaf that is the root is split. -/
theorem splitFullLeaf_root (h : Shows t v) {p : PageId} {leaf : BTreePage} {i : Nat}
    (hpath : Path v key v.rootPid p leaf []) (hi : PlaceOf key leaf.keys i) (hk : 1 ≤ key.length)
    (hfit : AllFit (BTree.splitFullLeaf (leaf.addRecord i key val) p [] t).2)
    (hfull : v.maxSize.toNat ≤ leaf.keys.length) :
    (∃ low t' mid w, BTree.splitFullLeaf (leaf.addRecord i key val) p [] t = (.ok low, t') ∧
        Shows t' (v.splitRoot (leaf.addRecord i key val) mid (t.heap 0) w) ∧ low.Paired ∧
        low.trim = { (leaf.addRecord i key val).lowerHalf with next := v.newId } ∧
        (putAt leaf.keys i key)[(leaf.keys.length + 1) / 2]? = some mid ∧
        v.diskCount.toNat + 2 < 65536) ∨
      Prog.Fails (BTree.splitFullLeaf (leaf.addRecord i key val) p []) t ∧
        65533 ≤ v.diskCount.toNat := by
  obtain ⟨hp0, hpn, hleaf⟩ := hpath.leaf_spec
  obtain ⟨hpaired, hcount, -⟩ := h.paired hp0 hpn
  obtain ⟨hpaired', hcount'⟩ := BTreePage.addRecord_paired hleaf hpaired hcount hi.1 hk val
  obtain ⟨hlen, mid, hmid, hmid'⟩ := BTreePage.addRecord_mid hleaf hi.1 key val
  have hleaf' := BTreePage.addRecord_isLeaf hleaf i key val
  have hroot := hpath.eq_of_nil
  subst hroot
  have hrun : BTree.splitFullLeaf (leaf.addRecord i key val) v.rootPid [] t =
      BTree.splitRootNode (leaf.addRecord i key val).isLeaf (leaf.addRecord i key val) t := by
    rw [BTree.splitFullLeaf, Prog.get_bind, h.maxSize, h.rootPid, if_pos (by omega),
      assert_bind hp0, hleaf']
    rfl
  by_cases hwrap : v.newId = 0 ∨ (v.addPage true).newId = 0
  · refine .inr ⟨?_, ?_⟩
    · have := splitRootNode_wrap h (leaf.addRecord i key val) (by rwa [hleaf'])
      rwa [Prog.Fails, ← hrun] at this
    · have hcount := View.diskCount_of_wrap hwrap
      omega
  · rw [not_or] at hwrap
    rw [hrun] at hfit
    obtain ⟨w, low, t', hsplit, htrim, hlow, h'⟩ := splitRootNode_ok h hp0 (h.live_of_node hp0 hpn)
      hpaired' hcount' hmid' hwrap.1 (by rw [hleaf']; exact hwrap.2) hfit
    have hlt := View.lt_of_newId hwrap.2
    rw [View.addPage_diskCount, View.diskCount_succ_toNat hwrap.1] at hlt
    exact .inl ⟨low, t', mid, w, hrun.trans hsplit, h', hlow, htrim, hmid, hlt⟩

/-- The root, an internal node with the pages `p` and `q` below it written already, is split. -/
theorem splitRootPage_step (h : Shows t v) {c : PageId} {parent : BTreePage} {mid : BTreeKey}
    (hc0 : c ≠ 0) (hroot : v.rootPid = c) (hc : v.node c = some parent) (hpar : parent.isLeaf = false)
    (hmid : parent.keys[parent.keys.length / 2]? = some mid)
    (hfit : AllFit (BTree.splitRootPage t).2) :
    (∃ u w t', BTree.splitRootPage t = (.ok (), t') ∧ v.newId ≠ 0 ∧ (v.addPage false).newId ≠ 0 ∧
        Shows t' (v.splitRoot parent mid u w)) ∨
      Prog.Fails BTree.splitRootPage t ∧ 65534 ≤ v.diskCount.toNat := by
  subst hroot
  obtain ⟨hpaired, hcount, -⟩ := h.paired hc0 hc
  have hread := h.getBtreePage_ok hc0 hc
  rw [← h.rootPid] at hread
  have hrun : BTree.splitRootPage t =
      (BTree.splitRootNode parent.isLeaf parent >>= fun _ => pure ()) t := by
    rw [BTree.splitRootPage, Prog.get_bind, Prog.bind_ok hread, hpar]
  by_cases hwrap : v.newId = 0 ∨ (v.addPage false).newId = 0
  · refine .inr ⟨?_, ?_⟩
    · have := (splitRootNode_wrap h parent (by rwa [hpar])).bind fun _ => (pure () : TreeM Disk Unit)
      rwa [Prog.Fails, ← hrun] at this
    · exact View.diskCount_of_wrap hwrap
  · rw [not_or] at hwrap
    rw [hrun] at hfit
    obtain ⟨w, low, t', hsplit, -, -, h'⟩ := splitRootNode_ok h hc0 (h.live_of_node hc0 hc) hpaired
      hcount hmid hwrap.1 (by rw [hpar]; exact hwrap.2) (hfit.left fun _ => .pure _)
    exact .inl ⟨t.heap 0, w, t', by rw [hrun, Prog.bind_ok hsplit]; rfl, hwrap.1, hwrap.2, h'⟩

namespace View

@[simp] theorem splitLeaf_maxSize (v : View) (p c : PageId) (n parent : BTreePage) (u : Uninit) :
    (v.splitLeaf p n c parent u).maxSize = v.maxSize := rfl

@[simp] theorem splitLeaf_rootPid (v : View) (p c : PageId) (n parent : BTreePage) (u : Uninit) :
    (v.splitLeaf p n c parent u).rootPid = v.rootPid := rfl

@[simp] theorem splitRoot_maxSize (v : View) (n : BTreePage) (mid : BTreeKey) (u w : Uninit) :
    (v.splitRoot n mid u w).maxSize = v.maxSize := rfl

@[simp] theorem splitRoot_rootPid (v : View) (n : BTreePage) (mid : BTreeKey) (u w : Uninit) :
    (v.splitRoot n mid u w).rootPid = (v.addPage n.isLeaf).newId := rfl

theorem splitLeaf_diskCount {v : View} (hid : v.newId ≠ 0) (p c : PageId) (n parent : BTreePage) (u : Uninit) :
    (v.splitLeaf p n c parent u).diskCount.toNat = v.diskCount.toNat + 1 :=
  diskCount_succ_toNat hid

theorem splitLeaf_node_parent (v : View) {p c : PageId} (n parent : BTreePage) (u : Uninit)
    (hcp : c ≠ p) (hcn : c ≠ v.newId) : (v.splitLeaf p n c parent u).node c = some parent := by
  rw [splitLeaf, put_node_ne _ _ hcp, put_node_ne _ _ hcn, put_node_same]

theorem splitLeaf_node_leaf (v : View) {p c : PageId} (n parent : BTreePage) (u : Uninit) :
    (v.splitLeaf p n c parent u).node p = some { n.lowerHalf with next := v.newId } :=
  put_node_same ..

theorem splitLeaf_node_new (v : View) {p c : PageId} (n parent : BTreePage) (u : Uninit)
    (hp : v.newId ≠ p) : (v.splitLeaf p n c parent u).node v.newId =
      some { n.upperHalf (BTreePage.new true u) with next := n.next } := by
  rw [splitLeaf, put_node_ne _ _ hp, put_node_same]

theorem splitLeaf_node_ne (v : View) {p c q : PageId} (n parent : BTreePage) (u : Uninit)
    (hp : q ≠ p) (hn : q ≠ v.newId) (hc : q ≠ c) : (v.splitLeaf p n c parent u).node q = v.node q := by
  rw [splitLeaf, put_node_ne _ _ hp, put_node_ne _ _ hn, put_node_ne _ _ hc]
  exact addPage_node_ne v true hn

theorem Sound.splitLeaf {v : View} (h : v.Sound) {p c : PageId} (hp : v.live p = true)
    (hc : v.live c = true) (n parent : BTreePage) (u : Uninit) :
    (v.splitLeaf p n c parent u).Sound := by
  intro q m h0 hq
  by_cases hqp : q = p
  · exact addPage_live (b := true) (hqp ▸ hp)
  by_cases hqn : q = v.newId
  · subst hqn; exact addPage_live_same v true
  by_cases hqc : q = c
  · exact addPage_live (b := true) (hqc ▸ hc)
  · rw [splitLeaf_node_ne v n parent u hqp hqn hqc] at hq
    exact addPage_live (b := true) (h q m h0 hq)

theorem splitRoot_node_old (v : View) (n : BTreePage) (mid : BTreeKey) (u w : Uninit) :
    (v.splitRoot n mid u w).node v.rootPid = some { n.lowerHalf with next := v.newId } :=
  put_node_same ..

theorem splitRoot_node_root (v : View) (n : BTreePage) (mid : BTreeKey) (u w : Uninit)
    (h : (v.addPage n.isLeaf).newId ≠ v.rootPid) :
    (v.splitRoot n mid u w).node (v.addPage n.isLeaf).newId =
      some (newRoot mid v.rootPid v.newId w) := by
  rw [splitRoot, put_node_ne _ _ h, put_node_same]

theorem splitRoot_node_new (v : View) (n : BTreePage) (mid : BTreeKey) (u w : Uninit)
    (h₁ : v.newId ≠ v.rootPid) (h₂ : v.newId ≠ (v.addPage n.isLeaf).newId) :
    (v.splitRoot n mid u w).node v.newId = some (n.upperHalf (BTreePage.new n.isLeaf u)) := by
  rw [splitRoot, put_node_ne _ _ h₁, put_node_ne _ _ h₂, put_node_same]

theorem splitRoot_node_ne (v : View) {q : PageId} (n : BTreePage) (mid : BTreeKey) (u w : Uninit)
    (h₁ : q ≠ v.rootPid) (h₂ : q ≠ v.newId) (h₃ : q ≠ (v.addPage n.isLeaf).newId) :
    (v.splitRoot n mid u w).node q = v.node q := by
  rw [splitRoot, put_node_ne _ _ h₁, put_node_ne _ _ h₃, put_node_ne _ _ h₂]
  exact (addPage_node_ne _ _ h₃).trans (addPage_node_ne _ _ h₂)

end View

/-! ## The split below a parent -/

section Climb

variable {t t' : BTree Disk} {b : Bool} {n low parent : BTreePage} {p : PageId} {top : Crumb}

/-- Without an overflow of the parent only the node is split. -/
theorem splitNonRootNode_of_room (rest : List Crumb)
    (hrun : BTree.splitIntoParent b n p (some top) t = (.ok (low, parent), t'))
    (hroom : parent.keys.length ≤ t'.maxSize.toNat) :
    BTree.splitNonRootNode b n p (top :: rest) t = (.ok low, t') := by
  cases rest with
  | nil =>
    rw [BTree.splitNonRootNode, Prog.bind_ok hrun]
    simp only [Prog.get_bind, if_neg (Nat.not_lt.mpr hroom)]
    rfl
  | cons above rest =>
    rw [BTree.splitNonRootNode, Prog.bind_ok hrun]
    simp only [Prog.get_bind, if_neg (Nat.not_lt.mpr hroom)]
    rfl

/-- A parent that overflows with no breadcrumb above it is taken for the root. -/
theorem splitNonRootNode_of_full (hrun : BTree.splitIntoParent b n p (some top) t = (.ok (low, parent), t'))
    (hfull : t'.maxSize.toNat < parent.keys.length) :
    BTree.splitNonRootNode b n p [top] t = (BTree.splitRootPage >>= fun _ => pure low) t' := by
  rw [BTree.splitNonRootNode, Prog.bind_ok hrun]
  simp only [Prog.get_bind, if_pos (show parent.keys.length > t'.maxSize.toNat from hfull)]

theorem splitNonRootNode_fails (rest : List Crumb) (h : Prog.Fails (BTree.splitIntoParent b n p (some top)) t) :
    Prog.Fails (BTree.splitNonRootNode b n p (top :: rest)) t := by
  cases rest with
  | nil => exact h.bind _
  | cons above rest => exact h.bind _

theorem AllFit.splitIntoParent {rest : List Crumb} (h : AllFit (BTree.splitNonRootNode b n p (top :: rest) t).2) :
    AllFit (BTree.splitIntoParent b n p (some top) t).2 := by
  cases rest with
  | nil => exact h.left fun _ => .bind .get fun _ => .when .splitRootPage (.pure _)
  | cons above rest =>
    refine h.left fun _ => .bind .get fun _ => ?_
    split
    · exact .bind (.getPrevBreadcrumbPid _) fun _ => .bind (.getBtreePage _) fun _ =>
        .bind (.splitNonRootNode _ _ _ _) fun _ => .pure _
    · exact .pure _

/-- A parent that overflows and is the root is split after the node. -/
theorem splitNonRootNode_root {v : View} {mid : BTreeKey} {m : BTreePage} (h : Shows t' v) (hpk : v.Packed)
    (hrun : BTree.splitIntoParent b n p (some top) t = (.ok (low, parent), t')) (hroot : v.rootPid = top.1)
    (h0 : top.1 ≠ 0) (hc : v.node top.1 = some parent) (hpar : parent.isLeaf = false)
    (hmid : parent.keys[parent.keys.length / 2]? = some mid) (hfull : v.maxSize.toNat < parent.keys.length)
    (hpc : p ≠ top.1) (hp : v.node p = some m) (hlive : v.live p = true)
    (hfit : AllFit (BTree.splitNonRootNode b n p [top] t).2) :
    (∃ u w t₂, BTree.splitNonRootNode b n p [top] t = (.ok low, t₂) ∧ Shows t₂ (v.splitRoot parent mid u w) ∧
        v.diskCount.toNat + 2 < 65536 ∧ (v.splitRoot parent mid u w).node p = some m ∧
        (v.splitRoot parent mid u w).live p = true) ∨
      Prog.Fails (BTree.splitNonRootNode b n p [top]) t ∧ 65534 ≤ v.diskCount.toNat := by
  have hrest := splitNonRootNode_of_full hrun (h.maxSize.symm ▸ hfull)
  rw [hrest] at hfit
  rcases splitRootPage_step h h0 hroot hc hpar hmid (hfit.left fun _ => .pure _) with
    ⟨u, w, t₂, hsplit, hid, hid', h₂⟩ | ⟨hfail, hwrap⟩
  · refine .inl ⟨u, w, t₂, ?_, h₂, ?_, ?_, View.addPage_live (b := false) (View.addPage_live hlive)⟩
    · rw [hrest, Prog.bind_ok hsplit]
      rfl
    · have hlt := View.lt_of_newId hid'
      rwa [View.addPage_diskCount, View.diskCount_succ_toNat hid] at hlt
    · refine (View.splitRoot_node_ne v _ _ _ _ (hroot ▸ hpc) (hpk.ne_newId hid hlive) ?_).trans hp
      rw [hpar]
      exact (hpk.addPage hid false).ne_newId hid' (View.addPage_live hlive)
  · refine .inr ⟨?_, hwrap⟩
    rw [Prog.Fails, hrest]
    exact hfail.bind _

end Climb

/-- A leaf below a parent is split. -/
theorem splitFullLeaf_parent (h : Shows t v) (hpk : v.Packed) {p c : PageId} {idx : Int}
    {leaf : BTreePage} {crumbs : List Crumb} {i : Nat}
    (hpath : Path v key v.rootPid p leaf ((c, idx) :: crumbs))
    (hnew : ∀ k ∈ leaf.keys, cmpKeys k key ≠ 0) (hi : PlaceOf key leaf.keys i) (hk : 1 ≤ key.length)
    (hover : NoInnerOverflow v leaf ((c, idx) :: crumbs))
    (hfit : AllFit (BTree.splitFullLeaf (leaf.addRecord i key val) p ((c, idx) :: crumbs) t).2)
    (hfull : v.maxSize.toNat ≤ leaf.keys.length) :
    (∃ low t' v', BTree.splitFullLeaf (leaf.addRecord i key val) p ((c, idx) :: crumbs) t =
          (.ok low, t') ∧
        Shows t' v' ∧ low.Paired ∧ v'.node p = some low.trim ∧ v'.live p = true ∧
        InsertStep v key val p leaf ((c, idx) :: crumbs) p v') ∨
      Prog.Fails (BTree.splitFullLeaf (leaf.addRecord i key val) p ((c, idx) :: crumbs)) t ∧
        65533 ≤ v.diskCount.toNat := by
  obtain ⟨hp0, hpn, hleaf⟩ := hpath.leaf_spec
  have hplive := h.live_of_node hp0 hpn
  obtain ⟨hpaired, hcount, -⟩ := h.paired hp0 hpn
  obtain ⟨hpaired', hcount'⟩ := BTreePage.addRecord_paired hleaf hpaired hcount hi.1 hk val
  obtain ⟨hlen, mid, hmid, hmid'⟩ := BTreePage.addRecord_mid hleaf hi.1 key val
  have hleaf' := BTreePage.addRecord_isLeaf hleaf i key val
  obtain ⟨hc0, parent, hc, hpar, -⟩ := hpath.crumb_spec (c, idx) (List.mem_cons_self ..)
  obtain ⟨cs, hcs⟩ := BTreePage.values_of_not_isLeaf (by rw [hpar]; simp)
  have hcp : c ≠ p := by
    rintro rfl
    rw [hpn] at hc
    cases hc
    rw [hpar] at hleaf
    cases hleaf
  have hrun : BTree.splitFullLeaf (leaf.addRecord i key val) p ((c, idx) :: crumbs) t =
      BTree.splitNonRootNode true (leaf.addRecord i key val) p ((c, idx) :: crumbs) t := by
    rw [BTree.splitFullLeaf, Prog.get_bind, h.maxSize, h.rootPid, if_pos (by omega),
      assert_bind hpath.start.1]
    rfl
  rw [hrun] at hfit ⊢
  by_cases hid : v.newId = 0
  · refine .inr ⟨?_, by have := View.diskCount_of_newId hid; omega⟩
    rw [Prog.Fails, hrun]
    exact splitNonRootNode_fails crumbs (splitIntoParent_wrap h (leaf.addRecord i key val) p (some (c, idx)) hid)
  have hcne : c ≠ v.newId := hpk.ne_newId hid (h.live_of_node hc0 hc)
  obtain ⟨u, j, low, t₁, hj, hsplit, htrim, hlow, h₁⟩ := splitIntoParent_ok h hp0 hplive hpaired'
    hcount' hleaf' hmid' hid (hpk.fresh hid) hc0 hc hcs hfit.splitIntoParent
  have hpl : (parent.addChild j mid p v.newId).keys.length = parent.keys.length + 1 := by
    rw [BTreePage.addChild_keys hcs, putAt_length _ _ hj.1]
  have hlow₁ : (v.splitLeaf p (leaf.addRecord i key val) c (parent.addChild j mid p v.newId) u).node p =
      some low.trim := by rw [htrim]; exact View.splitLeaf_node_leaf ..
  have hplive₁ : (v.splitLeaf p (leaf.addRecord i key val) c (parent.addChild j mid p v.newId) u).live p =
      true := View.addPage_live (b := true) hplive
  have hpk₁ : (v.splitLeaf p (leaf.addRecord i key val) c (parent.addChild j mid p v.newId) u).Packed :=
    hpk.addPage hid true
  by_cases hov : v.maxSize.toNat ≤ parent.keys.length
  · -- the parent overflows, so it is the root
    cases crumbs with
    | cons above rest =>
      obtain ⟨parent', hc', hlt⟩ := hover hfull
      rw [hc] at hc'
      cases hc'
      omega
    | nil =>
      have hroot : c = v.rootPid := by
        rw [← List.nil_append [(c, idx)]] at hpath
        exact hpath.bottom
      obtain ⟨mid', hm⟩ : ∃ m, (putAt parent.keys j mid)[(parent.keys.length + 1) / 2]? = some m :=
        ⟨_, List.getElem?_eq_getElem (by rw [putAt_length _ _ hj.1]; omega)⟩
      have hm' : (parent.addChild j mid p v.newId).keys[
          (parent.addChild j mid p v.newId).keys.length / 2]? = some mid' := by
        rw [hpl, BTreePage.addChild_keys hcs, hm]
      have hpar' : (parent.addChild j mid p v.newId).isLeaf = false := by
        rw [BTreePage.isLeaf, BTreePage.addChild_values hcs]
      have hfull₁ : v.maxSize.toNat < (parent.addChild j mid p v.newId).keys.length := by
        rw [hpl]
        exact Nat.lt_succ_of_le hov
      rcases splitNonRootNode_root h₁ hpk₁ hsplit hroot.symm hc0 (View.splitLeaf_node_parent v _ _ _ hcp hcne) hpar'
        hm' hfull₁ (Ne.symm hcp) hlow₁ hplive₁ hfit with ⟨u', w, t₂, hrest, h₂, hlt, hp₂, hlive₂⟩ | ⟨hfail, hwrap⟩
      · rw [View.splitLeaf_diskCount hid] at hlt
        exact .inl ⟨low, t₂, _, hrest, h₂, hlow, hp₂, hlive₂,
          .splitBoth hnew hi hfull hmid hlt hc hroot.symm hj hov hm⟩
      · rw [View.splitLeaf_diskCount hid] at hwrap
        refine .inr ⟨?_, by omega⟩
        rwa [Prog.Fails, hrun]
  · have hrest : BTree.splitNonRootNode true (leaf.addRecord i key val) p ((c, idx) :: crumbs) t =
        (.ok low, t₁) := by
      refine splitNonRootNode_of_room crumbs hsplit ?_
      rw [h₁.maxSize, hpl]
      exact Nat.not_le.mp hov
    exact .inl ⟨low, t₁, _, hrest, h₁, hlow, hlow₁, hplive₁,
      .splitLeaf hnew hi hfull hmid (View.lt_of_newId hid) hc hj (by omega)⟩

/-- Storing a new record in the leaf that was found, with the split it may need. -/
theorem storeRecord_step (h : Shows t v) (hpk : v.Packed) {p : PageId} {leaf : BTreePage}
    {crumbs : List Crumb} {i : Nat} (hpath : Path v key v.rootPid p leaf crumbs)
    (hnew : ∀ k ∈ leaf.keys, cmpKeys k key ≠ 0) (hi : PlaceOf key leaf.keys i) (hk : 1 ≤ key.length)
    (hover : NoInnerOverflow v leaf crumbs)
    (hfit : AllFit ((BTree.splitFullLeaf (leaf.addRecord i key val) p crumbs >>= fun n => do
      BTree.flushNode p n
      pure p : TreeM Disk PageId) t).2) :
    (∃ t' v', (BTree.splitFullLeaf (leaf.addRecord i key val) p crumbs >>= fun n => do
        BTree.flushNode p n
        pure p : TreeM Disk PageId) t = (.ok p, t') ∧ Shows t' v' ∧
        InsertStep v key val p leaf crumbs p v') ∨
      Prog.Fails (BTree.splitFullLeaf (leaf.addRecord i key val) p crumbs) t ∧
        65533 ≤ v.diskCount.toNat := by
  obtain ⟨hp0, hpn, hleaf⟩ := hpath.leaf_spec
  have hfit₁ : AllFit (BTree.splitFullLeaf (leaf.addRecord i key val) p crumbs t).2 :=
    hfit.left fun _ => .bind (.flushNode _ _) fun _ => .pure _
  by_cases hfull : v.maxSize.toNat ≤ leaf.keys.length
  · have hsplit : (∃ low t' v', BTree.splitFullLeaf (leaf.addRecord i key val) p crumbs t =
          (.ok low, t') ∧ Shows t' v' ∧ low.Paired ∧ v'.node p = some low.trim ∧ v'.live p = true ∧
          InsertStep v key val p leaf crumbs p v') ∨
        Prog.Fails (BTree.splitFullLeaf (leaf.addRecord i key val) p crumbs) t ∧
          65533 ≤ v.diskCount.toNat := by
      cases crumbs with
      | nil =>
        rcases splitFullLeaf_root h hpath hi hk hfit₁ hfull with
          ⟨low, t₁, mid, w, hr, h₁, hlow, htrim, hmid, hcount⟩ | hfail
        · have hroot := hpath.eq_of_nil
          subst hroot
          refine .inl ⟨low, t₁, _, hr, h₁, hlow, ?_, ?_, .splitRoot hnew hi hfull hmid hcount⟩
          · rw [htrim]
            exact View.put_node_same ..
          · exact View.addPage_live (b := false) (View.addPage_live (h.live_of_node hp0 hpn))
        · exact .inr hfail
      | cons c crumbs => exact splitFullLeaf_parent h hpk hpath hnew hi hk hover hfit₁ hfull
    rcases hsplit with ⟨low, t₁, v₁, hr, h₁, hlow, hn, hl, hstep⟩ | hfail
    · rw [Prog.bind_ok hr] at hfit ⊢
      obtain ⟨t₂, hr₂, -, h₂⟩ := h₁.flushNode_bind hp0 hl hlow hfit (.pure _)
      rw [View.put_of_node hn] at h₂
      exact .inl ⟨t₂, v₁, hr₂, h₂, hstep⟩
    · exact .inr hfail
  · obtain ⟨hpaired, hcount, -⟩ := h.paired hp0 hpn
    obtain ⟨hpaired', hcount'⟩ := BTreePage.addRecord_paired hleaf hpaired hcount hi.1 hk val
    obtain ⟨hlen, -⟩ := BTreePage.addRecord_mid hleaf hi.1 key val
    have hr : BTree.splitFullLeaf (leaf.addRecord i key val) p crumbs t =
        (.ok (leaf.addRecord i key val), t) := by
      rw [BTree.splitFullLeaf, Prog.get_bind, h.maxSize, if_neg (by omega)]
      rfl
    rw [Prog.bind_ok hr] at hfit ⊢
    obtain ⟨t₂, hr₂, -, h₂⟩ :=
      h.flushNode_bind hp0 (h.live_of_node hp0 hpn) hpaired' hfit (.pure _)
    rw [BTreePage.trim_eq_self hcount'] at h₂
    exact .inl ⟨t₂, _, hr₂, h₂, .room hnew hi (by omega)⟩

/-- With a root there is nothing to create. -/
theorem createRoot_of_ne (h : Shows t v) (hroot : v.rootPid ≠ 0) : BTree.createRoot t = (.ok (), t) := by
  have hle : ¬ v.rootPid ≤ BTREE_METADATA_PAGE_ID := fun hle => hroot (UInt32.le_zero_iff.mp hle)
  rw [BTree.createRoot, Prog.get_bind, h.rootPid, if_neg hle]
  rfl

/-- `v` after an empty leaf was made its root. -/
def View.createRoot (v : View) : View :=
  { v.addPage true with rootPid := v.newId, nodeCount := v.nodeCount + 1 }

theorem createRoot_ok (h : Shows t v) (hroot : v.rootPid = 0) (hid : v.newId ≠ 0) :
    ∃ t', BTree.createRoot t = (.ok (), t') ∧ Shows t' v.createRoot := by
  obtain ⟨t₁, hr₁, h₁⟩ := h.newIndexPage_ok true hid
  refine ⟨_, ?_, (h₁.setRoot v.newId).setCount (v.nodeCount + 1)⟩
  rw [BTree.createRoot, Prog.get_bind, h.rootPid, hroot, if_pos (UInt32.le_refl _), Prog.bind_ok hr₁,
    Prog.modify_bind, assert_bind hid, Prog.modify_apply]
  have hcount : t₁.nodeCount = v.nodeCount := h₁.nodeCount
  simp only [hcount]

/-- The first insertion makes the root; what follows is an insertion into the index with the root. -/
theorem insert_createRoot {t' : BTree Disk} {v' : View} (hr : BTree.createRoot t = (.ok (), t'))
    (h' : Shows t' v') (hroot : v'.rootPid ≠ 0) (key : BTreeKey) (val : RID) :
    BTree.insert key val t = BTree.insert key val t' := by
  rw [BTree.insert, Prog.bind_ok hr, Prog.bind_ok (createRoot_of_ne h' hroot)]

/-- An insertion of a new key stores the leaf that the search ended at with the record put in. -/
theorem insert_eq_store (h : Shows t v) {p : PageId} {leaf : BTreePage} {crumbs : List Crumb}
    (hpath : Path v key v.rootPid p leaf crumbs) (hlen : crumbs.length < 2 ^ 32)
    (hnew : ∀ k ∈ leaf.keys, cmpKeys k key ≠ 0) (val : RID) :
    ∃ i, PlaceOf key leaf.keys i ∧ BTree.insert key val t =
      (BTree.splitFullLeaf (leaf.addRecord i key val) p crumbs >>= fun n => do
        BTree.flushNode p n
        pure p : TreeM Disk PageId) t := by
  obtain ⟨hp0, hpn, hleaf⟩ := hpath.leaf_spec
  obtain ⟨rs, hrs⟩ := BTreePage.values_of_isLeaf hleaf
  obtain ⟨-, hcount, hbound⟩ := h.paired hp0 hpn
  have hany : ¬ (leaf.keys.any fun leafKey => cmpKeys leafKey key == 0) = true := by simpa using hnew
  obtain ⟨i, hi, hins⟩ := BTreePage.insertRecord_ok hrs hcount (by omega) key val
  rw [← BTreePage.addRecord_eq hrs] at hins
  refine ⟨i, hi, ?_⟩
  rw [BTree.insert, Prog.bind_ok (createRoot_of_ne h hpath.start.1),
    Prog.bind_ok (findLeaf_of_path h hpath hlen)]
  simp only
  rw [assert_bind hp0, if_neg hany, hins, Prog.lift_ok_bind]

/-- A leaf that is the root and overflows. Its right half is made in the next block of the heap. -/
theorem insert_splitRoot (h : Shows t v) {leaf : BTreePage} (hpath : Path v key v.rootPid v.rootPid leaf [])
    (hnew : ∀ k ∈ leaf.keys, cmpKeys k key ≠ 0) (hfull : v.maxSize.toNat ≤ leaf.keys.length)
    (hk : 1 ≤ key.length) (hfit : AllFit (BTree.insert key val t).2) {r : PageId} {t' : BTree Disk}
    (hrun : BTree.insert key val t = (.ok r, t')) :
    ∃ i mid w, PlaceOf key leaf.keys i ∧ (putAt leaf.keys i key)[(leaf.keys.length + 1) / 2]? = some mid ∧
      v.diskCount.toNat + 2 < 65536 ∧
      Shows t' (v.splitRoot (leaf.addRecord i key val) mid (t.heap 0) w) := by
  obtain ⟨hp0, hpn, -⟩ := hpath.leaf_spec
  obtain ⟨i, hi, heq⟩ := insert_eq_store h hpath (by simp) hnew val
  rw [heq] at hrun hfit
  rcases splitFullLeaf_root h hpath hi hk (hfit.left fun _ => .bind (.flushNode _ _) fun _ => .pure _) hfull with
    ⟨low, t₁, mid, w, hr, h₁, hlow, htrim, hmid, hcount⟩ | ⟨hfail, -⟩
  · rw [Prog.bind_ok hr] at hrun hfit
    have hlive := View.addPage_live (b := false) (View.addPage_live (b := (leaf.addRecord i key val).isLeaf)
      (h.live_of_node hp0 hpn))
    obtain ⟨t₂, hr₂, -, h₂⟩ := h₁.flushNode_bind hp0 hlive hlow hfit (.pure _)
    rw [hr₂] at hrun
    cases hrun
    have hnode : (v.splitRoot (leaf.addRecord i key val) mid (t.heap 0) w).node v.rootPid = some low.trim := by
      rw [htrim]
      exact View.put_node_same ..
    rw [View.put_of_node hnode] at h₂
    exact ⟨i, mid, w, hi, hmid, hcount, h₂⟩
  · exact absurd hrun (hfail.bind _).ne_ok

/-- **The step of an insertion.** It does what one of the five cases says, unless the counter of pages
wraps. -/
theorem insert_step (h : Shows t v) (hpk : v.Packed) {p : PageId} {leaf : BTreePage}
    {crumbs : List Crumb} (hpath : Path v key v.rootPid p leaf crumbs) (hlen : crumbs.length < 2 ^ 32)
    (hk : 1 ≤ key.length)
    (hover : (∀ k ∈ leaf.keys, cmpKeys k key ≠ 0) → NoInnerOverflow v leaf crumbs)
    (hfit : AllFit (BTree.insert key val t).2) :
    (∃ r t' v', BTree.insert key val t = (.ok r, t') ∧ Shows t' v' ∧
        InsertStep v key val p leaf crumbs r v') ∨
      Prog.Fails (BTree.insert key val) t ∧ 65533 ≤ v.diskCount.toNat := by
  obtain ⟨hp0, -, -⟩ := hpath.leaf_spec
  by_cases hdup : ∃ k ∈ leaf.keys, cmpKeys k key = 0
  · have hany : (leaf.keys.any fun leafKey => cmpKeys leafKey key == 0) = true := by
      simpa using hdup
    refine .inl ⟨0, t, v, ?_, h, .duplicate hdup⟩
    rw [BTree.insert, Prog.bind_ok (createRoot_of_ne h hpath.start.1),
      Prog.bind_ok (findLeaf_of_path h hpath hlen)]
    simp only
    rw [assert_bind hp0, if_pos hany]
    rfl
  · have hnew : ∀ k ∈ leaf.keys, cmpKeys k key ≠ 0 := by simpa using hdup
    obtain ⟨i, hi, hrun⟩ := insert_eq_store h hpath hlen hnew val
    rw [hrun] at hfit
    rcases storeRecord_step h hpk hpath hnew hi hk (hover hnew) hfit with
      ⟨t', v', hr, h', hstep⟩ | ⟨hfail, hwrap⟩
    · exact .inl ⟨p, t', v', hrun.trans hr, h', hstep⟩
    · refine .inr ⟨?_, hwrap⟩
      rw [Prog.Fails, hrun]
      exact hfail.bind _

end Step

/-- The insertion of `key` splits a leaf below a node that is full and is not the root. -/
def overflowsInner (t : BTree Disk) (key : BTreeKey) : Bool :=
  match BTree.findLeaf key t with
  | (.ok (_, leaf, top :: _ :: _), _) =>
    (leaf.keys.all fun k => cmpKeys k key ≠ 0) && t.maxSize.toNat ≤ leaf.keys.length &&
      (t.bpm.nodeAt top.1).any fun parent => t.maxSize.toNat ≤ parent.keys.length
  | _ => false

theorem noInnerOverflow_of {t : BTree Disk} {v : View} {key : BTreeKey} {p : PageId}
    {leaf : BTreePage} {crumbs : List Crumb} (h : Shows t v)
    (hpath : Path v key v.rootPid p leaf crumbs) (hlen : crumbs.length < 2 ^ 32)
    (hover : overflowsInner t key = false) (hnew : ∀ k ∈ leaf.keys, cmpKeys k key ≠ 0) :
    NoInnerOverflow v leaf crumbs := by
  rcases crumbs with _ | ⟨top, _ | ⟨above, rest⟩⟩
  · trivial
  · trivial
  · intro hfull
    obtain ⟨h0, parent, hparent, -⟩ := hpath.crumb_spec top (List.mem_cons_self ..)
    refine ⟨parent, hparent, Nat.lt_of_not_le fun hle => ?_⟩
    have hall : (leaf.keys.all fun k => cmpKeys k key ≠ 0) = true := by simpa using hnew
    rw [overflowsInner, findLeaf_of_path h hpath hlen] at hover
    simp only [hall, h.node _ h0, hparent, h.maxSize, Option.any_some, Bool.true_and,
      Bool.and_eq_false_iff, decide_eq_false_iff_not] at hover
    omega

/-! ## Bookkeeping -/

/-- The pages are packed, and the counters and the largest number of keys in memory are those on
disk. -/
structure View.Tidy (v : View) : Prop where
  packed : v.Packed
  count : v.nodeCount = v.diskCount
  max : v.diskMax = v.maxSize

namespace View

variable {v : View}

theorem fresh_tidy (m : UInt8) : (fresh m).Tidy where
  packed p := by
    have : p = 0 ↔ p.toNat = 0 := UInt32.toNat_inj.symm
    simp [fresh, this]
  count := rfl
  max := rfl

theorem Tidy.createRoot (h : v.Tidy) (hcount : v.diskCount.toNat + 1 < 65536) : v.createRoot.Tidy :=
  ⟨h.packed.addPage (newId_ne_zero hcount) true, by simp [View.createRoot, h.count], h.max⟩

theorem Tidy.put (h : v.Tidy) (p : PageId) (n : BTreePage) : (v.put p n).Tidy :=
  ⟨h.packed, h.count, h.max⟩

theorem Tidy.splitLeaf (h : v.Tidy) (hcount : v.diskCount.toNat + 1 < 65536) (p c : PageId)
    (n parent : BTreePage) (u : Uninit) : (v.splitLeaf p n c parent u).Tidy :=
  ⟨h.packed.addPage (newId_ne_zero hcount) true, by simp [View.splitLeaf, h.count], h.max⟩

theorem Tidy.splitRoot_count (h : v.Tidy) (b : Bool) :
    v.nodeCount + 2 = ((v.addPage b).addPage false).diskCount := by
  rw [addPage_diskCount, addPage_diskCount, h.count, UInt16.add_assoc]
  rfl

theorem Tidy.splitRoot (h : v.Tidy) (hcount : v.diskCount.toNat + 2 < 65536) (n : BTreePage)
    (mid : BTreeKey) (u w : Uninit) : (v.splitRoot n mid u w).Tidy where
  packed p := by
    have := (h.packed.addPage (newId_ne_zero (by omega)) n.isLeaf).addPage
      (addPage_newId_ne_zero hcount _) false p
    rw [← h.splitRoot_count] at this
    exact this
  count := rfl
  max := rfl

theorem Tidy.splitRoot_diskCount (h : v.Tidy) (hcount : v.diskCount.toNat + 2 < 65536) (n : BTreePage)
    (mid : BTreeKey) (u w : Uninit) :
    (v.splitRoot n mid u w).diskCount.toNat = v.diskCount.toNat + 2 := by
  have hdisk : (v.splitRoot n mid u w).diskCount = ((v.addPage n.isLeaf).addPage false).diskCount :=
    h.splitRoot_count n.isLeaf
  rw [hdisk, addPage_diskCount, diskCount_succ_toNat (addPage_newId_ne_zero hcount _),
    addPage_diskCount, diskCount_succ_toNat (newId_ne_zero (by omega))]

/-- The two pages that a split of the root makes are different. -/
theorem newId_ne_newId (hcount : v.diskCount.toNat + 2 < 65536) (b : Bool) :
    v.newId ≠ (v.addPage b).newId := by
  intro h
  have h₁ := newId_toNat_of_ne (newId_ne_zero (v := v) (by omega))
  have h₂ := newId_toNat_of_ne (addPage_newId_ne_zero hcount b)
  rw [addPage_diskCount, diskCount_succ_toNat (newId_ne_zero (by omega)), ← h] at h₂
  omega

end View

/-- Whatever an insertion does, the bookkeeping stays right. -/
theorem InsertStep.tidy {v v' : View} {key : BTreeKey} {val : RID} {p r : PageId} {leaf : BTreePage}
    {crumbs : List Crumb} (h : InsertStep v key val p leaf crumbs r v') (htidy : v.Tidy) :
    v'.Tidy ∧ v'.maxSize = v.maxSize := by
  cases h with
  | duplicate => exact ⟨htidy, rfl⟩
  | room => exact ⟨htidy.put _ _, View.put_maxSize ..⟩
  | splitRoot _ _ _ _ hcount => exact ⟨htidy.splitRoot hcount _ _ _ _, View.splitRoot_maxSize ..⟩
  | splitLeaf _ _ _ _ hcount => exact ⟨htidy.splitLeaf hcount _ _ _ _ _, View.splitLeaf_maxSize ..⟩
  | splitBoth _ _ _ _ hcount =>
    refine ⟨(htidy.splitLeaf (by omega) _ _ _ _ _).splitRoot ?_ _ _ _ _, by simp⟩
    rw [View.splitLeaf_diskCount (View.newId_ne_zero (by omega))]
    omega

end SomeDB
