import SomeDB.Index.Capacity
import SomeDB.Index.Merge

/-!
# The form of an index under insertions and removals

Removals leave trees that are out of shape: a node whose rightmost pointer is 0, a node without keys
below the root, a leaf that is a child twice. What stays is the kind of each page (`Form`): the root is
a leaf, or a node above leaves, or a node with one key above two of those. Every insertion that returns
keeps the form (`Form.insert`), and so does every removal that returns (`Form.remove`); both say what
happens to the root pointer in memory and on disk.
-/

namespace SomeDB

open Lib

/-- Page `p` holds a leaf. -/
def View.IsLeafPage (v : View) (p : PageId) : Prop := p ≠ 0 ∧ ∃ n, v.node p = some n ∧ n.isLeaf = true

/-- A pointer to a leaf. It is 0 where a merge took the leaf away. -/
def View.LeafOrNone (v : View) (p : PageId) : Prop := p = 0 ∨ v.IsLeafPage p

/-- Page `p` holds a node above leaves. -/
def View.IsMidPage (v : View) (p : PageId) : Prop :=
  p ≠ 0 ∧ ∃ n, v.node p = some n ∧ Level1 v.LeafOrNone n

/-- The forms of an index with a root. -/
inductive Form (v : View) : Prop
  | leaf (hroot : v.IsLeafPage v.rootPid)
  | mid (hroot : v.IsMidPage v.rootPid)
  | top {n : BTreePage} {q : PageId} (hroot : v.rootPid ≠ 0) (hn : v.node v.rootPid = some n)
    (hk : n.keys.length = 1) (hv : n.values = .children [q]) (hq : v.IsMidPage q)
    (hr : v.IsMidPage n.rightmostPtr)

theorem Form.root_ne {v : View} (h : Form v) : v.rootPid ≠ 0 := by
  cases h with
  | leaf h => exact h.1
  | mid h => exact h.1
  | top h => exact h

namespace View

variable {v v' : View} {p q c : PageId} {n : BTreePage}

theorem IsLeafPage.ne_of_node (h : v.IsLeafPage q) (hc : v.node c = some n) (hl : n.isLeaf = false) :
    q ≠ c := by
  rintro rfl
  obtain ⟨-, n', hn', hl'⟩ := h
  rw [hc] at hn'
  cases hn'
  rw [hl] at hl'
  cases hl'

theorem IsLeafPage.ne_mid (h : v.IsLeafPage q) (hc : v.IsMidPage c) : q ≠ c := by
  obtain ⟨-, n, hn, hl⟩ := hc
  exact h.ne_of_node hn hl.isLeaf

/-- A node above a node above leaves is no node above leaves. -/
theorem IsMidPage.ne_above (h : v.IsMidPage c) (hr : v.node p = some n)
    (hv : n.values = .children [q]) (hq : v.IsMidPage q) : c ≠ p := by
  rintro rfl
  obtain ⟨-, n', hn', cs, hv', hcs, -⟩ := h
  rw [hr] at hn'
  cases hn'
  rw [hv] at hv'
  cases hv'
  rcases hcs q (by simp) with rfl | hl
  · exact hq.1 rfl
  · exact hl.ne_mid hq rfl

/-- A node above leaves stays one as long as its page is not written and leaves stay leaves. -/
theorem IsMidPage.congr (h : v.IsMidPage q) (hn : v'.node q = v.node q)
    (hleaf : ∀ p, v.IsLeafPage p → v'.IsLeafPage p) : v'.IsMidPage q := by
  obtain ⟨h0, n, hq, hl⟩ := h
  exact ⟨h0, n, hn.trans hq, hl.mono fun p => Or.imp_right (hleaf p)⟩

theorem IsLeafPage.put (h : v.IsLeafPage q) (hl : n.isLeaf = true) : (v.put p n).IsLeafPage q := by
  by_cases hq : q = p
  · subst hq
    exact ⟨h.1, n, put_node_same .., hl⟩
  · rwa [IsLeafPage, put_node_ne v n hq]

theorem IsLeafPage.put_ne (h : v.IsLeafPage q) (hq : q ≠ p) : (v.put p n).IsLeafPage q := by
  rwa [IsLeafPage, put_node_ne v n hq]

end View

/-! ## The way to a leaf -/

section Ways

variable {v : View} {key : BTreeKey} {p c : PageId} {leaf : BTreePage} {crumbs : List Crumb}

theorem View.IsLeafPage.path (h : v.IsLeafPage c) (hpath : Path v key c p leaf crumbs) :
    crumbs = [] ∧ p = c := by
  obtain ⟨-, n, hn, hl⟩ := h
  cases hpath with
  | leaf => exact ⟨rfl, rfl⟩
  | first _ hn' hv =>
    rw [hn] at hn'
    cases hn'
    simp [BTreePage.isLeaf, hv] at hl
  | last _ hn' hv =>
    rw [hn] at hn'
    cases hn'
    simp [BTreePage.isLeaf, hv] at hl

/-- A path never ends on page 0. -/
theorem View.LeafOrNone.path (h : v.LeafOrNone c) (hpath : Path v key c p leaf crumbs) :
    v.IsLeafPage p ∧ crumbs = [] := by
  rcases h with rfl | h
  · exact absurd rfl hpath.start.1
  · obtain ⟨rfl, rfl⟩ := h.path hpath
    exact ⟨h, rfl⟩

theorem View.IsMidPage.path (h : v.IsMidPage c) (hpath : Path v key c p leaf crumbs) :
    v.IsLeafPage p ∧ ∃ idx, crumbs = [(c, idx)] ∧ (idx = 0 ∨ idx = -1) := by
  obtain ⟨-, n, hn, cs, hv, hcs, hr⟩ := h
  cases hpath with
  | leaf _ hn' hl =>
    rw [hn] at hn'
    cases hn'
    simp [BTreePage.isLeaf, hv] at hl
  | first _ hn' hv' _ _ hc rest =>
    rw [hn] at hn'
    cases hn'
    rw [hv] at hv'
    cases hv'
    obtain ⟨hp, rfl⟩ := (hcs _ (List.mem_of_getElem? hc)).path rest
    exact ⟨hp, 0, rfl, .inl rfl⟩
  | last _ hn' _ _ _ _ rest =>
    rw [hn] at hn'
    cases hn'
    obtain ⟨hp, rfl⟩ := hr.path rest
    exact ⟨hp, -1, rfl, .inr rfl⟩

/-- A path from a node above two nodes goes through one of them. -/
theorem top_path {r q : PageId} {n : BTreePage} (hn : v.node r = some n)
    (hv : n.values = .children [q]) (hq : v.IsMidPage q) (hr : v.IsMidPage n.rightmostPtr)
    (hpath : Path v key r p leaf crumbs) :
    v.IsLeafPage p ∧ ∃ b idx idx', crumbs = [(b, idx), (r, idx')] ∧ v.IsMidPage b ∧
      (idx = 0 ∨ idx = -1) ∧ (idx' = 0 ∨ idx' = -1) := by
  cases hpath with
  | leaf _ hn' hl =>
    rw [hn] at hn'
    cases hn'
    simp [BTreePage.isLeaf, hv] at hl
  | first _ hn' hv' _ _ hc rest =>
    rw [hn] at hn'
    cases hn'
    rw [hv] at hv'
    cases hv'
    have hmid := List.mem_singleton.mp (List.mem_of_getElem? hc) ▸ hq
    obtain ⟨hp, idx, rfl, hidx⟩ := hmid.path rest
    exact ⟨hp, _, idx, 0, rfl, hmid, hidx, .inl rfl⟩
  | last _ hn' _ _ _ _ rest =>
    rw [hn] at hn'
    cases hn'
    obtain ⟨hp, idx, rfl, hidx⟩ := hr.path rest
    exact ⟨hp, _, idx, -1, rfl, hr, hidx, .inr rfl⟩

/-- The leaf that a path leads to, and how long the path is. -/
theorem Form.path (h : Form v) (hpath : Path v key v.rootPid p leaf crumbs) :
    v.IsLeafPage p ∧ crumbs.length ≤ 2 := by
  cases h with
  | leaf h => obtain ⟨rfl, rfl⟩ := h.path hpath; exact ⟨h, by simp⟩
  | mid h => obtain ⟨hp, idx, rfl, -⟩ := h.path hpath; exact ⟨hp, by simp⟩
  | top _ hn _ hv hq hr =>
    obtain ⟨hp, b, idx, idx', rfl, -⟩ := top_path hn hv hq hr hpath
    exact ⟨hp, by simp⟩

end Ways

/-! ## Writing nodes of the same kind -/

section Writes

variable {v v' : View} {p q c : PageId} {n : BTreePage}

/-- `v'` has the metadata of `v`, and every leaf of `v` is one in `v'`. -/
structure SameRoot (v v' : View) : Prop where
  rootPid : v'.rootPid = v.rootPid
  diskRoot : v'.diskRoot = v.diskRoot
  tidy : v.Tidy → v'.Tidy
  leaf : ∀ q, v.IsLeafPage q → v'.IsLeafPage q

theorem SameRoot.refl (v : View) : SameRoot v v := ⟨rfl, rfl, id, fun _ => id⟩

theorem SameRoot.trans {v'' : View} (h : SameRoot v v') (h' : SameRoot v' v'') : SameRoot v v'' :=
  ⟨h'.rootPid.trans h.rootPid, h'.diskRoot.trans h.diskRoot, h'.tidy ∘ h.tidy,
    fun q => h'.leaf q ∘ h.leaf q⟩

theorem SameRoot.put_leaf (v : View) (p : PageId) (hl : n.isLeaf = true) : SameRoot v (v.put p n) :=
  ⟨rfl, rfl, fun h => h.put p n, fun _ hq => hq.put hl⟩

theorem SameRoot.put_mid (h : v.IsMidPage c) (n : BTreePage) : SameRoot v (v.put c n) :=
  ⟨rfl, rfl, fun h => h.put c n, fun _ hq => hq.put_ne (hq.ne_mid h)⟩

/-- Leaves are written. -/
theorem Form.congr (h : Form v) (hs : SameRoot v v')
    (hnode : ∀ q n, v.node q = some n → n.isLeaf = false → v'.node q = some n) : Form v' := by
  have hmid : ∀ {q : PageId}, v.IsMidPage q → v'.IsMidPage q := by
    intro q hq
    obtain ⟨-, n, hn, hl⟩ := id hq
    exact hq.congr ((hnode q n hn hl.isLeaf).trans hn.symm) hs.leaf
  cases h with
  | leaf h => exact .leaf (hs.rootPid ▸ hs.leaf _ h)
  | mid h => exact .mid (hs.rootPid ▸ hmid h)
  | top h0 hn hk hv hq hr =>
    exact .top (hs.rootPid ▸ h0) (hs.rootPid ▸ hnode _ _ hn (BTreePage.isLeaf_of_children hv)) hk hv
      (hmid hq) (hmid hr)

theorem Form.put_leaf (h : Form v) (hp : v.IsLeafPage p) (hl : n.isLeaf = true) : Form (v.put p n) := by
  refine h.congr (.put_leaf v p hl) fun q m hq hm => ?_
  rwa [View.put_node_ne _ _ (hp.ne_of_node hq hm).symm]

/-- A node above leaves is written, with pointers to leaves. -/
theorem View.IsMidPage.put_mid (h : v.IsMidPage q) (hc : v.IsMidPage c) (hn : Level1 v.LeafOrNone n) :
    (v.put c n).IsMidPage q := by
  have hleaf := (SameRoot.put_mid hc n).leaf
  by_cases hq : q = c
  · subst hq
    exact ⟨h.1, n, View.put_node_same .., hn.mono fun p => Or.imp_right (hleaf p)⟩
  · exact h.congr (View.put_node_ne v n hq) hleaf

theorem Form.put_mid (h : Form v) (hc : v.IsMidPage c) (hn : Level1 v.LeafOrNone n) :
    Form (v.put c n) := by
  cases h with
  | leaf h => exact .leaf ((SameRoot.put_mid hc n).leaf _ h)
  | mid h => exact .mid (h.put_mid hc hn)
  | top h0 hr hk hv hq hq' =>
    have hne := (hc.ne_above hr hv hq).symm
    exact .top h0 ((View.put_node_ne v n hne).trans hr) hk hv (hq.put_mid hc hn) (hq'.put_mid hc hn)

end Writes

/-! ## Insertions -/

section Insert

variable {v v' : View} {key : BTreeKey} {val : RID} {p c : PageId} {leaf n parent : BTreePage}
  {crumbs : List Crumb}

/-- The leaf at `p`, cut in two below the node at `c`. -/
theorem isLeafPage_splitLeaf (hs : v.Sound) (hpk : v.Packed) (hid : v.newId ≠ 0)
    (hp : v.IsLeafPage p) (hl : n.isLeaf = true) (hc : v.IsMidPage c) (parent : BTreePage) (u : Uninit) :
    (∀ q, v.IsLeafPage q → (v.splitLeaf p n c parent u).IsLeafPage q) ∧
      (v.splitLeaf p n c parent u).IsLeafPage v.newId := by
  have hlive : ∀ {q}, v.IsLeafPage q → v.live q = true := fun ⟨h0, _, hq, _⟩ => hs _ _ h0 hq
  constructor
  · intro q hq
    by_cases hqp : q = p
    · subst hqp
      exact ⟨hq.1, _, View.splitLeaf_node_leaf .., (BTreePage.lowerHalf_isLeaf n).trans hl⟩
    · rwa [View.IsLeafPage, View.splitLeaf_node_ne v n parent u hqp (hpk.ne_newId hid (hlive hq))
        (hq.ne_mid hc)]
  · exact ⟨hid, _, View.splitLeaf_node_new v n parent u (hpk.ne_newId hid (hlive hp)).symm,
      (BTreePage.upperHalf_isLeaf n _).trans hl⟩

/-- The nodes above leaves when a leaf below one of them is cut in two. -/
theorem isMidPage_splitLeaf (hs : v.Sound) (hpk : v.Packed) (hid : v.newId ≠ 0)
    (hp : v.IsLeafPage p) (hl : n.isLeaf = true) (hc : v.IsMidPage c) (hcn : v.node c = some parent)
    (j : Nat) (mid : BTreeKey) (u : Uninit) {q : PageId} (hq : v.IsMidPage q) :
    (v.splitLeaf p n c (parent.addChild j mid p v.newId) u).IsMidPage q := by
  obtain ⟨hkeep, hnew⟩ := isLeafPage_splitLeaf hs hpk hid hp hl hc (parent.addChild j mid p v.newId) u
  obtain ⟨hq0, m, hm, hlev⟩ := id hq
  have hqn : q ≠ v.newId := hpk.ne_newId hid (hs _ _ hq0 hm)
  by_cases hqc : q = c
  · subst hqc
    rw [hcn] at hm
    cases hm
    refine ⟨hq0, _, View.splitLeaf_node_parent v n _ u (hp.ne_mid hc).symm hqn, ?_⟩
    exact (hlev.mono fun r => Or.imp_right (hkeep r)).addChild (.inr (hkeep p hp)) (.inr hnew) ..
  · exact hq.congr (View.splitLeaf_node_ne v n _ u (hp.ne_mid hq).symm hqn hqc) hkeep

theorem Form.splitLeaf (hs : v.Sound) (hpk : v.Packed) (hid : v.newId ≠ 0) (h : Form v)
    (hp : v.IsLeafPage p) (hl : n.isLeaf = true) (hc : v.IsMidPage c) (hcn : v.node c = some parent)
    (j : Nat) (mid : BTreeKey) (u : Uninit) :
    Form (v.splitLeaf p n c (parent.addChild j mid p v.newId) u) := by
  have hmid : ∀ {q}, v.IsMidPage q →
      (v.splitLeaf p n c (parent.addChild j mid p v.newId) u).IsMidPage q :=
    isMidPage_splitLeaf hs hpk hid hp hl hc hcn j mid u
  cases h with
  | leaf h => exact .leaf ((isLeafPage_splitLeaf hs hpk hid hp hl hc _ u).1 _ h)
  | mid h => exact .mid (hmid h)
  | top h0 hr hk hv hq hq' =>
    refine .top h0 ?_ hk hv (hmid hq) (hmid hq')
    exact (View.splitLeaf_node_ne v n _ u (hp.ne_of_node hr (BTreePage.isLeaf_of_children hv)).symm
      (hpk.ne_newId hid (hs _ _ h0 hr)) (hc.ne_above hr hv hq).symm).trans hr

/-- The pages that a split of the root writes are different. -/
theorem splitRoot_nodes (hpk : v.Packed) (hcount : v.diskCount.toNat + 2 < 65536)
    (hlive : v.live v.rootPid = true) (n : BTreePage) (mid : BTreeKey) (u w : Uninit) :
    (v.splitRoot n mid u w).node v.rootPid = some { n.lowerHalf with next := v.newId } ∧
      (v.splitRoot n mid u w).node v.newId = some (n.upperHalf (BTreePage.new n.isLeaf u)) ∧
      (v.splitRoot n mid u w).node (v.splitRoot n mid u w).rootPid =
        some (View.newRoot mid v.rootPid v.newId w) := by
  have hid : v.newId ≠ 0 := View.newId_ne_zero (by omega)
  have hne : (v.addPage n.isLeaf).newId ≠ v.rootPid :=
    ((hpk.addPage hid _).ne_newId (View.addPage_newId_ne_zero hcount _) (View.addPage_live hlive)).symm
  exact ⟨View.splitRoot_node_old .., View.splitRoot_node_new v n mid u w
    (hpk.ne_newId hid hlive).symm (View.newId_ne_newId hcount _), View.splitRoot_node_root v n mid u w hne⟩

/-- The leaf that is the root is split. -/
theorem Form.splitRoot_leaf (hs : v.Sound) (hpk : v.Packed) (hcount : v.diskCount.toNat + 2 < 65536)
    (hroot : v.IsLeafPage v.rootPid) (hl : n.isLeaf = true) (mid : BTreeKey) (u w : Uninit) :
    Form (v.splitRoot n mid u w) := by
  obtain ⟨h0, m, hm, -⟩ := hroot
  obtain ⟨hold, hnew, hroot'⟩ := splitRoot_nodes hpk hcount (hs _ _ h0 hm) n mid u w
  have hid : v.newId ≠ 0 := View.newId_ne_zero (by omega)
  refine .mid ⟨View.addPage_newId_ne_zero hcount _, _, hroot', [v.rootPid], rfl, ?_, .inr ?_⟩
  · rintro c hc
    rw [List.mem_singleton.mp hc]
    exact .inr ⟨h0, _, hold, (BTreePage.lowerHalf_isLeaf n).trans hl⟩
  · exact ⟨hid, _, hnew, (BTreePage.upperHalf_isLeaf n _).trans hl⟩

/-- The root, a node above leaves, is split. -/
theorem Form.splitRoot_mid (hs : v.Sound) (hpk : v.Packed) (hcount : v.diskCount.toNat + 2 < 65536)
    (hroot : v.IsMidPage v.rootPid) (hn : v.node v.rootPid = some n) (hval : n.valCount = n.keys.length)
    (hpos : 1 ≤ n.keys.length) (mid : BTreeKey) (u w : Uninit) : Form (v.splitRoot n mid u w) := by
  obtain ⟨h0, m, hm, hlev⟩ := id hroot
  rw [hn] at hm
  cases hm
  obtain ⟨hold, hnew, hroot'⟩ := splitRoot_nodes hpk hcount (hs _ _ h0 hn) n mid u w
  have hkeep : ∀ q, v.LeafOrNone q → (v.splitRoot n mid u w).LeafOrNone q := by
    intro q
    refine Or.imp_right fun hq => ?_
    obtain ⟨hq0, m', hm', -⟩ := id hq
    rwa [View.IsLeafPage, splitRoot_node_of_live hpk hcount (hq.ne_mid hroot) (hs _ _ hq0 hm')]
  exact .top (View.addPage_newId_ne_zero hcount _) hroot' rfl rfl
    ⟨h0, _, hold, (hlev.mono hkeep).lowerHalf hval hpos _⟩
    ⟨View.newId_ne_zero (by omega), _, hnew, (hlev.mono hkeep).upperHalf _⟩

/-- The key is not in the leaf, and the leaf is full. -/
def Overfills (v : View) (key : BTreeKey) (leaf : BTreePage) : Prop :=
  (∀ k ∈ leaf.keys, cmpKeys k key ≠ 0) ∧ v.maxSize.toNat ≤ leaf.keys.length

/-- An insertion into a leaf that is the root makes another root exactly if the leaf is full. -/
theorem InsertStep.root_leaf (hs : v.Sound) (htidy : v.Tidy) (hroot : v.IsLeafPage v.rootPid)
    (hpath : Path v key v.rootPid p leaf crumbs) {r : PageId}
    (h : InsertStep v key val p leaf crumbs r v') :
    (¬ Overfills v key leaf ∧ v'.IsLeafPage v'.rootPid ∧ v'.rootPid = v.rootPid ∧
        v'.diskRoot = v.diskRoot) ∨
      (Overfills v key leaf ∧ Form v' ∧ v'.diskRoot = v'.rootPid) := by
  obtain ⟨hnil, rfl⟩ := hroot.path hpath
  obtain ⟨-, -, hleaf⟩ := hpath.leaf_spec
  cases h with
  | duplicate hdup =>
    obtain ⟨k, hk, heq⟩ := hdup
    exact .inl ⟨fun hover => hover.1 k hk heq, hroot, rfl, rfl⟩
  | room _ _ hroom =>
    refine .inl ⟨fun hover => absurd hover.2 (by omega), ?_, rfl, rfl⟩
    exact hroot.put (BTreePage.addRecord_isLeaf hleaf ..)
  | splitRoot hnew _ hfull _ hcount =>
    exact .inr ⟨⟨hnew, hfull⟩, Form.splitRoot_leaf hs htidy.packed hcount hroot
      (BTreePage.addRecord_isLeaf hleaf ..) .., rfl⟩
  | splitLeaf => cases hnil
  | splitBoth => cases hnil

/-- Every insertion keeps the form, and the root on disk once it is right. -/
theorem Form.insert {t : BTree Disk} (hs : Shows t v) (htidy : v.Tidy) (hform : Form v)
    (hsync : v.diskRoot = v.rootPid) (hpath : Path v key v.rootPid p leaf crumbs) {r : PageId}
    (h : InsertStep v key val p leaf crumbs r v') : Form v' ∧ v'.diskRoot = v'.rootPid := by
  obtain ⟨hp, -⟩ := hform.path hpath
  obtain ⟨-, -, hleaf⟩ := hpath.leaf_spec
  have hleaf' : ∀ i, (leaf.addRecord i key val).isLeaf = true :=
    fun i => BTreePage.addRecord_isLeaf hleaf i key val
  cases h with
  | duplicate => exact ⟨hform, hsync⟩
  | room => exact ⟨hform.put_leaf hp (hleaf' _), hsync⟩
  | splitRoot _ _ _ _ hcount =>
    have hroot := hpath.eq_of_nil
    subst hroot
    exact ⟨Form.splitRoot_leaf hs.sound htidy.packed hcount hp (hleaf' _) .., rfl⟩
  | @splitLeaf crumbs c idx i j mid u parent _ _ _ _ hcount hc _ _ =>
    have hmid : v.IsMidPage c := by
      cases hform with
      | leaf h => exact absurd (h.path hpath).1 (by simp)
      | mid h => obtain ⟨-, idx, hcrumbs, -⟩ := h.path hpath; cases hcrumbs; exact h
      | top _ hn _ hv hq hr =>
        obtain ⟨-, b, idx, idx', hcrumbs, hb, -⟩ := top_path hn hv hq hr hpath
        cases hcrumbs
        exact hb
    exact ⟨hform.splitLeaf hs.sound htidy.packed (View.newId_ne_zero (by omega)) hp (hleaf' i) hmid hc j
      mid u, hsync⟩
  | @splitBoth c idx i j mid mid' u u' w parent _ _ _ _ hcount hc hroot hj _ _ =>
    subst hroot
    have hid : v.newId ≠ 0 := View.newId_ne_zero (by omega)
    have hmid : v.IsMidPage v.rootPid := by
      cases hform with
      | leaf h => exact absurd (h.path hpath).1 (by simp)
      | mid h => exact h
      | top _ hn _ hv hq hr =>
        obtain ⟨-, b, idx, idx', hcrumbs, -⟩ := top_path hn hv hq hr hpath
        cases hcrumbs
    obtain ⟨h0, parent', hc', cs, hcs, -⟩ := id hmid
    rw [hc] at hc'
    cases hc'
    have hlive := hs.live_of_node h0 hc
    refine ⟨Form.splitRoot_mid (hs.sound.splitLeaf (hs.live_of_node hp.1 hpath.leaf_spec.2.1) hlive _ _ u)
      (htidy.splitLeaf (by omega) _ _ _ _ u).packed ?_
      (isMidPage_splitLeaf hs.sound htidy.packed hid hp (hleaf' i) hmid hc j mid u hmid)
      (View.splitLeaf_node_parent v _ _ u (hp.ne_mid hmid).symm (htidy.packed.ne_newId hid hlive))
      (BTreePage.addChild_valCount hcs (hs.paired h0 hc).2.1 hj.1 ..) ?_ mid' u' w, rfl⟩
    · rw [View.splitLeaf_diskCount hid]
      omega
    · rw [BTreePage.addChild_keys hcs, putAt_length _ _ hj.1]
      omega

end Insert

/-! ## Removals -/

namespace Level1

variable {ok : PageId → Prop} {n l r : BTreePage} {p : PageId}

theorem popLast (h : Level1 ok n) (hp : ok p) : Level1 ok (n.popLast p) := by
  obtain ⟨cs, hv, hcs, hr⟩ := h
  rw [BTreePage.popLast_eq hv]
  refine ⟨cs.dropLast, rfl, fun c hc => hcs c (List.dropLast_subset _ hc), ?_⟩
  show ok (if n.keys.length = 1 then n.rightmostPtr else p)
  split
  · exact hr
  · exact hp

theorem popFirst (h : Level1 ok n) (hp : ok p) : Level1 ok (n.popFirst p) := by
  obtain ⟨cs, hv, hcs, hr⟩ := h
  rw [BTreePage.popFirst_eq hv]
  refine ⟨cs.tail.set 0 p, rfl, fun c hc => ?_, hr⟩
  rcases List.mem_or_eq_of_mem_set hc with hc | rfl
  · exact hcs c (List.mem_of_mem_tail hc)
  · exact hp

theorem absorbInner (hl : Level1 ok l) (hr : Level1 ok r) (k : BTreeKey) : Level1 ok (l.absorbInner k r) := by
  obtain ⟨ls, hlv, hls, hll⟩ := hl
  obtain ⟨rs, hrv, hrs, hrr⟩ := hr
  rw [BTreePage.absorbInner_eq hlv hrv]
  refine ⟨_, rfl, fun c hc => ?_, hrr⟩
  simp only [List.mem_append, List.mem_singleton] at hc
  rcases hc with (hc | rfl) | hc
  · exact hls c hc
  · exact hll
  · exact hrs c hc

end Level1

section Remove

variable {t t' : BTree Disk} {v v₁ : View} {key : BTreeKey} {p c w root : PageId}
  {leaf node n parent parent' : BTreePage} {crumbs : List Crumb} {idx : Int}

/-- What a merge of two leaves keeps. -/
structure Merged (v v₁ : View) (c : PageId) (parent' : BTreePage) : Prop where
  form : Form v₁
  same : SameRoot v v₁
  mid : v₁.IsMidPage c
  parent : v₁.node c = some parent'
  above : ∀ {r q n}, v.node r = some n → n.values = .children [q] → v.IsMidPage q →
    v₁.node r = some n ∧ v₁.IsMidPage q

/-- A leaf is stored, and then the node above it. -/
theorem Form.merged (h : Form v) (hw : v.IsLeafPage w) (hl : n.isLeaf = true) (hc : v.IsMidPage c)
    (hn : Level1 v.LeafOrNone parent') : Merged v ((v.put w n).put c parent') c parent' := by
  have hleaf : ∀ q, v.IsLeafPage q → (v.put w n).IsLeafPage q := (SameRoot.put_leaf v w hl).leaf
  have hc' : (v.put w n).IsMidPage c :=
    hc.congr (View.put_node_ne v n (hw.ne_mid hc).symm) hleaf
  have hn' : Level1 (v.put w n).LeafOrNone parent' := hn.mono fun q => Or.imp_right (hleaf q)
  have hsame := (SameRoot.put_leaf v w hl).trans (SameRoot.put_mid hc' parent')
  refine ⟨(h.put_leaf hw hl).put_mid hc' hn', hsame, hc'.put_mid hc' hn', View.put_node_same .., ?_⟩
  intro r q m hr hv hq
  have hrw : r ≠ w := (hw.ne_of_node hr (BTreePage.isLeaf_of_children hv)).symm
  have hrc : r ≠ c := (hc.ne_above hr hv hq).symm
  have hq' : (v.put w n).IsMidPage q := hq.congr (View.put_node_ne v n (hw.ne_mid hq).symm) hleaf
  exact ⟨(View.put_node_ne _ _ hrc).trans ((View.put_node_ne _ _ hrw).trans hr), hq'.put_mid hc' hn'⟩

/-- A merge of a leaf keeps the form. If the node above has no key left, its last leaf is the page that
can become the root. -/
theorem LeafMerge.merged (hmerge : BTree.LeafMerge v p c node parent idx v₁ parent' root) (h : Form v)
    (hp : v.IsLeafPage p) (hpn : v.node p = some node) (hc : v.IsMidPage c)
    (hcn : v.node c = some parent) (hne : parent.keys ≠ []) :
    Merged v v₁ c parent' ∧ (parent'.keys = [] → v₁.IsLeafPage root) := by
  obtain ⟨-, parent₁, hcn', hlev⟩ := id hc
  rw [hcn] at hcn'
  cases hcn'
  have hleaf : node.isLeaf = true := by
    obtain ⟨-, n, hn, hl⟩ := hp
    rw [hpn] at hn
    cases hn
    exact hl
  cases hmerge with
  | keep => exact ⟨⟨h, .refl v, hc, hcn, fun hr _ hq => ⟨hr, hq⟩⟩, fun hnil => absurd hnil hne⟩
  | left hidx hcs hq hq0 hsib hss =>
    have hroot : v.IsLeafPage root := ⟨hq0, _, hsib, hss⟩
    have hm := h.merged hroot (BTreePage.absorb_isLeaf (r := node) hss) hc (hlev.popLast (.inr hroot))
    exact ⟨hm, fun _ => hm.same.leaf _ hroot⟩
  | @rightLast sib hidx hlast hq0 hsib hss =>
    obtain ⟨cs, hcs, hall, -⟩ := hlev
    have hlast' : Level1 v.LeafOrNone { parent with rightmostPtr := 0 } := ⟨cs, hcs, hall, .inl rfl⟩
    have hm := h.merged hp (BTreePage.absorb_isLeaf (r := sib) hleaf) hc hlast'
    exact ⟨hm, fun _ => hm.same.leaf _ hp⟩
  | @right sib hidx hlast hlen hq0 hsib hss =>
    have hl : ({ node.absorb sib with next := sib.next } : BTreePage).isLeaf = true :=
      BTreePage.absorb_isLeaf hleaf
    have hm := h.merged hp hl hc (hlev.popFirst (.inr hp))
    exact ⟨hm, fun _ => hm.same.leaf _ hp⟩

/-- The page `root` is made the root, also on disk. -/
def View.collapse (v : View) (root : PageId) : View := ({ v with rootPid := root } : View).syncMeta

theorem View.Tidy.collapse (h : v.Tidy) (root : PageId) : (v.collapse root).Tidy :=
  ⟨fun p => (h.packed p).trans (by rw [← h.count]; rfl), rfl, rfl⟩

/-- The end of a merge at the root. -/
theorem mergeTail_nil (hs : Shows t v) (h : BTree.mergeTail c parent root [] t = (.ok (), t')) :
    parent.keys ≠ [] ∧ Shows t' v ∨ parent.keys = [] ∧ Shows t' (v.collapse root) := by
  by_cases hne : parent.keys = []
  · obtain ⟨t₁, hr, hs₁⟩ := BTree.mergeTail_nil_of_eq (c := c) hs hne root
    rw [h] at hr
    cases hr
    exact .inr ⟨hne, hs₁⟩
  · rw [BTree.mergeTail_nil_of_ne hne] at h
    cases h
    exact .inl ⟨hne, hs⟩

/-- What a removal keeps: there is a root, the bookkeeping is right, and the root on disk is right if it
was. -/
structure KeepsForm (v v' : View) : Prop where
  form : Form v'
  tidy : v'.Tidy
  sync : v.diskRoot = v.rootPid → v'.diskRoot = v'.rootPid

/-- A merge below the root, a node above leaves. -/
theorem Form.merge_mid (hs : Shows t v) (htidy : v.Tidy) (h : Form v) (hp : v.IsLeafPage p)
    (hc : v.IsMidPage c) (hne : ∀ n, v.node c = some n → n.keys ≠ []) (hidx : idx = 0 ∨ idx = -1)
    (hrun : BTree.merge p [(c, idx)] t = (.ok (), t')) (hfit : AllFit t') :
    ∃ v', Shows t' v' ∧ KeepsForm v v' := by
  obtain ⟨hc0, parent, hcn, hlev⟩ := id hc
  obtain ⟨hp0, node, hpn, hleaf⟩ := id hp
  obtain ⟨v₁, parent', root, t₁, hmerge, hs₁, htail⟩ :=
    BTree.merge_leaf hs hc0 hcn hlev.isLeaf (hne _ hcn) hp0 hpn hleaf hidx hrun hfit
  obtain ⟨hm, hroot⟩ := LeafMerge.merged hmerge h hp hpn hc hcn (hne _ hcn)
  rcases mergeTail_nil hs₁ htail with ⟨-, hs'⟩ | ⟨hnil, hs'⟩
  · refine ⟨v₁, hs', hm.form, hm.same.tidy htidy, fun hsync => ?_⟩
    rw [hm.same.diskRoot, hm.same.rootPid, hsync]
  · exact ⟨_, hs', .leaf (hroot hnil), (hm.same.tidy htidy).collapse root, fun _ => rfl⟩

/-- A merge of a node above leaves below the root, a node with one key. -/
theorem Form.merge_top (hs : Shows t v) (htidy : v.Tidy) (h : Form v) {q : PageId}
    (hrn : v.node v.rootPid = some n) (hk : n.keys.length = 1) (hv : n.values = .children [q])
    (hq : v.IsMidPage q) (hc : v.IsMidPage c) (hidx : idx = 0 ∨ idx = -1)
    (hrun : BTree.merge c [(v.rootPid, idx)] t = (.ok (), t')) (hfit : AllFit t') :
    ∃ v', Shows t' v' ∧ KeepsForm v v' := by
  obtain ⟨hc0, node, hcn, hlev⟩ := id hc
  obtain ⟨hq0, qn, hqn, hqlev⟩ := id hq
  have hne : n.keys ≠ [] := List.ne_nil_of_length_pos (by omega)
  have hchild : ∀ p ∈ [q], p ≠ 0 ∧ ∃ n, v.node p = some n ∧ n.isLeaf = false := by
    intro p hp
    rw [List.mem_singleton.mp hp]
    exact ⟨hq0, qn, hqn, hqlev.isLeaf⟩
  obtain ⟨v₁, parent', root, t₁, hmerge, hs₁, htail⟩ := BTree.merge_inner hs h.root_ne hrn hv hne hchild
    hc0 hcn hlev.isLeaf hidx hrun hfit
  cases hmerge with
  | keep =>
    rcases mergeTail_nil hs₁ htail with ⟨-, hs'⟩ | ⟨hnil, -⟩
    · exact ⟨v, hs', h, htidy, id⟩
    · exact absurd hnil hne
  | @left cs q' sib k hidx hcs hlast hq0' hsib =>
    rw [hv] at hcs
    cases hcs
    cases hlast
    rw [hqn] at hsib
    cases hsib
    have hnil : n.demote.keys = [] := by
      rw [BTreePage.demote, hv]
      exact List.length_eq_zero_iff.mp (by simp [hk])
    rcases mergeTail_nil hs₁ htail with ⟨hne', -⟩ | ⟨-, hs'⟩
    · exact absurd hnil hne'
    · have hmid : (v.put q (qn.absorbInner k node)).IsMidPage q := hq.put_mid hq (hqlev.absorbInner hlev k)
      have hrn' : (v.put q (qn.absorbInner k node)).node v.rootPid = some n :=
        (View.put_node_ne _ _ (hq.ne_above hrn hv hq).symm).trans hrn
      have hmid' := hmid.congr (View.put_node_ne _ n.demote (hq.ne_above hrn hv hq)) fun p hp =>
        hp.put_ne (hp.ne_of_node hrn' (BTreePage.isLeaf_of_children hv))
      exact ⟨_, hs', .mid hmid', ((htidy.put _ _).put _ _).collapse q, fun _ => rfl⟩

/-- **A removal keeps the form.** -/
theorem Form.remove (hs : Shows t v) (htidy : v.Tidy) (hform : Form v)
    (hpath : Path v key v.rootPid p leaf crumbs) (hrun : BTree.remove key t = (.ok (), t'))
    (hfit : AllFit t') : ∃ v', Shows t' v' ∧ KeepsForm v v' := by
  obtain ⟨hp, hlen⟩ := hform.path hpath
  obtain ⟨-, -, hleaf⟩ := hpath.leaf_spec
  obtain ⟨-, t₁, hs₁, htail⟩ := remove_eq_ok hs hpath (by omega) hrun hfit
  have hleaf' := BTreePage.dropRecord_isLeaf hleaf (BTree.keyIndex leaf.keys key)
  have hform₁ := hform.put_leaf hp hleaf'
  have hsame := SameRoot.put_leaf v p hleaf'
  have hp₁ := hsame.leaf p hp
  have htidy₁ := hsame.tidy htidy
  have hinner : ∀ {c m}, v.node c = some m → m.isLeaf = false →
      (v.put p (leaf.dropRecord (BTree.keyIndex leaf.keys key))).node c = some m := fun hm hl =>
    (View.put_node_ne v _ (hp.ne_of_node hm hl).symm).trans hm
  have hmid : ∀ {c}, v.IsMidPage c →
      (v.put p (leaf.dropRecord (BTree.keyIndex leaf.keys key))).IsMidPage c := fun hc =>
    hc.congr (View.put_node_ne v _ (hp.ne_mid hc).symm) hsame.leaf
  cases hform with
  | leaf h =>
    obtain ⟨rfl, -⟩ := h.path hpath
    cases htail
    exact ⟨_, hs₁, hform₁, htidy₁, id⟩
  | mid h =>
    obtain ⟨-, idx, rfl, hidx⟩ := h.path hpath
    obtain ⟨-, m, hm, hml, hmk⟩ := hpath.crumb_spec _ (List.mem_cons_self ..)
    have hne : ∀ n, (v.put p (leaf.dropRecord (BTree.keyIndex leaf.keys key))).node v.rootPid = some n →
        n.keys ≠ [] := by
      intro n hn
      rw [hinner hm hml] at hn
      cases hn
      exact hmk
    obtain ⟨v', hs', hk⟩ := hform₁.merge_mid hs₁ htidy₁ hp₁ (hmid h) hne hidx htail hfit
    exact ⟨v', hs', hk.form, hk.tidy, hk.sync⟩
  | top h0 hn hk hv hq hq' =>
    obtain ⟨-, b, idx, idx', rfl, hb, hidx, hidx'⟩ := top_path hn hv hq hq' hpath
    obtain ⟨hb0, m, hm, hml, hmk⟩ := hpath.crumb_spec _ (List.mem_cons_self ..)
    have hrun₁ : BTree.merge p [(b, idx), (v.rootPid, idx')] t₁ = (.ok (), t') := htail
    -- the leaf first, and then the node above it
    obtain ⟨v₂, parent', root, t₂, hmerge, hs₂, htail₂⟩ := BTree.merge_leaf hs₁ hb0 (hinner hm hml) hml hmk
      hp₁.1 (View.put_node_same ..) hleaf' hidx hrun₁ hfit
    obtain ⟨hmerged, -⟩ := LeafMerge.merged hmerge hform₁ hp₁ (View.put_node_same ..) (hmid hb)
      (hinner hm hml) hmk
    obtain ⟨hrn, hq₂⟩ := hmerged.above (hinner hn (BTreePage.isLeaf_of_children hv)) hv (hmid hq)
    have hroot : v₂.rootPid = v.rootPid := hmerged.same.rootPid
    have htop : BTree.merge b [(v₂.rootPid, idx')] t₂ = (.ok (), t') := by
      rw [hroot]
      exact htail₂
    obtain ⟨v', hs', hk'⟩ := hmerged.form.merge_top hs₂ (hmerged.same.tidy htidy₁) (hroot ▸ hrn) hk hv hq₂
      hmerged.mid hidx' htop hfit
    refine ⟨v', hs', hk'.form, hk'.tidy, fun hsync => hk'.sync ?_⟩
    rw [hmerged.same.diskRoot, hmerged.same.rootPid]
    exact hsync

end Remove

end SomeDB
