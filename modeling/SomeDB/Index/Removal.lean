import SomeDB.Index.Climb

/-!
# What a removal leaves

`Finishes m key t`: after the record of `key` was taken out of the tree `t`, all merges from its leaf up to the root
go well. Below the root they settle; the root loses its last key only to a merge of its two children in which the
search went to the last one. `remove_exact_iff`: a removal completes with exactly the other records if and only if
the search comes to a leaf with the key and the merges finish. `remove_keeps_iff` says the same of a tree of two
levels and a key of an outer leaf, where the tree is well-formed again.
-/

namespace SomeDB

open Lib SomeDB.Tree

namespace Tree

/-- The two children of the root are fused: the search goes to the last one, and the fused node fits in a page. -/
def FusesAtRoot (m : Nat) (key : BTreeKey) {h : Nat} (b : Branch (Tree (h + 1))) : Prop :=
  b.goesFirst key = false ∧ b.kids.length = 1 ∧
    nodeSize false (Branch.keys (b.neighbour key) ++ b.keys ++ keptKeys m key (b.child key)) ≤ 4096

/-- All merges from the leaf of the search up to the root go well. -/
def Finishes (m : Nat) (key : BTreeKey) : {h : Nat} → Tree h → Prop
  | 0, _ => True
  | 1, b => Joins m key b →
    (2 ≤ (Branch.kids b).length ∨ Branch.goesFirst key b = false) ∧ JoinFits key b
  | _ + 2, b => Settles m key (Branch.child key b) ∧ (StaysApart m key b ∨ FusesAtRoot m key b)

/-- The tree without the record of the key in the leaf of its search. -/
def without (key : BTreeKey) {h : Nat} (t : Tree h) : Tree h := setLeaf key t ((route key t).erase key)

end Tree

/-- The run has returned, every node that was serialized fits in a page, and the records of the index are `recs`. -/
def Yields (r : Except Fault Unit × BTree Disk) (recs : List (BTreeKey × RID)) : Prop :=
  r.1 = .ok () ∧ AllFit r.2 ∧ readRecords r.2.bpm r.2.rootPid = some recs

section Top

variable {s s' : BTree Disk} {v v' : View} {key : BTreeKey} {h : Nat} {rs : List (BTreeKey × RID)}

theorem Held.yields {t : Tree h} (ht : Held v t) (hs : ShowsFit s v) : Yields (.ok (), s) t.records :=
  ⟨rfl, hs.logged, ht.readRecords hs.shows ht.stored.height_lt⟩

/-- A tree that was rebuilt below its root page. -/
theorem Tree.Rebuilt.held {b b' : Tree h} (hb : Held v b) (hr : Rebuilt v v' b b') : Held v' b' :=
  ⟨hr.same.rootPid.trans (hb.root.trans hr.pid.symm), hr.stored, hb.nodup.sublist hr.pages⟩

theorem Tree.Stored.pages_ne_zero {t : Tree h} (hs : Stored v t) : ∀ q ∈ t.pages, q ≠ 0 := by
  induction h with
  | zero =>
    intro q hq
    rw [List.mem_singleton.mp hq]
    exact hs.1
  | succ h ih =>
    intro q hq
    rcases List.mem_cons.mp hq with rfl | hq
    · exact hs.1
    · obtain ⟨c, hc, hq⟩ := List.mem_flatMap.mp hq
      exact ih (hs.2.2 c hc) q hq

/-- The root has no key left. -/
theorem mergeTail_collapse (hs : ShowsFit s v) {n : BTreePage} (hnil : n.keys = []) (c root : PageId) :
    ∃ s', BTree.mergeTail c n root [] s = (.ok (), s') ∧ ShowsFit s' (v.collapse root) := by
  obtain ⟨s', hr, hs'⟩ := BTree.mergeTail_nil_of_eq (c := c) hs.shows hnil root
  refine ⟨s', hr, hs', ?_⟩
  have hlog : (BTree.mergeTail c n root [] s).2.serialized = s.serialized := by
    rw [BTree.mergeTail, if_pos (by rw [hnil]; rfl)]
    rfl
  rw [hr] at hlog
  rw [AllFit, hlog]
  exact hs.logged

/-- The root lacks records. -/
theorem Wrecked.not_yields {b : Tree (h + 1)} {n : BTreePage} (hw : Wrecked v v' b n) (hb : Stored v b)
    (hs : Shows s v') (hroot : v'.rootPid = b.pid) : readRecords s.bpm s.rootPid ≠ some b.records := by
  intro hread
  have hzero := hb.pages_ne_zero
  have hnode := hs.node _ (hzero _ (pid_mem_pages b))
  rw [hs.rootPid, hroot] at hread
  have hall := (readsPage_of_readRecords (hzero _ (pid_mem_pages b)) hread).children (hnode.trans hw.node) hw.inner
  exact Nat.lt_irrefl _ (hw.lacks s.bpm _ (fun q hq => hs.node q (hzero q hq)) hall)

/-- A root that settles keeps a key. -/
theorem Tree.Settles.keptKeys_ne {m : Nat} {b : Tree (h + 1)} (hset : Settles m key b) (hk : Branch.keys b ≠ []) :
    keptKeys m key b ≠ [] := by
  cases h with
  | succ h => exact hk
  | zero =>
    rw [keptKeys]
    split
    · next hj =>
      have htwo := (hset hj).1
      have hlen : (Branch.keys b).length = (Branch.kids b).length := List.length_map ..
      split <;> rw [← List.length_pos_iff] <;> simp <;> omega
    · exact hk

/-! ## Trees of two levels -/

theorem records_joinOnly (pid next : PageId) (flags : UInt8) (f last : Leaf) (sep : BTreeKey) :
    records (h := 0) (f.join last f.next) = records (h := 1) ⟨pid, flags, next, [(f, sep)], last⟩ := by
  simp [records_two, records_leaf, Leaf.join]

/-- The two leaves of a root with one key are joined, and the root goes. -/
theorem merge_joinsOnly (hs : ShowsFit s v) {pid next : PageId} {flags : UInt8} {f last : Leaf} {sep : BTreeKey}
    (hb : Ready v (h := 1) ⟨pid, flags, next, [(f, sep)], last⟩) (hne : f.records ≠ [])
    (hle : last.records.length + f.records.length ≤ v.maxSize.toNat)
    (hfit : nodeSize true (last.node.keys ++ f.node.keys) ≤ 4096) :
    Yields (BTree.merge last.pid [(pid, -1)] s) (records (h := 1) ⟨pid, flags, next, [(f, sep)], last⟩) := by
  obtain ⟨hf0, hfn⟩ := hb.stored.2.2 f (by simp [Branch.children])
  obtain ⟨hl0, hln⟩ := hb.stored.2.2 last (by simp [Branch.children])
  obtain ⟨s₁, hrun, hs₁⟩ := BTree.merge_leaf_left_fit hs hb.stored.1 hb.stored.2.1 rfl hb.fits.root hl0
    hln (sibPid_last [] last) hf0 hfn rfl rfl (by simpa [Leaf.node] using hne) (by simpa [Leaf.node] using hle) rfl
    (by simp [node, Branch.keys]) (fitsPage_absorb.mpr (by rwa [nodeSize_append_comm])) []
  obtain ⟨s₂, hrun₂, hs₂⟩ := mergeTail_collapse hs₁
    (show ((node (h := 1) ⟨pid, flags, next, [(f, sep)], last⟩).popLast f.pid).keys = [] from rfl) pid f.pid
  rw [hrun, hrun₂, ← records_joinOnly pid next flags f last sep]
  refine Held.yields ⟨rfl, ⟨hf0, ?_⟩, List.pairwise_singleton ..⟩ hs₂
  have hfp : f.pid ≠ pid := by
    have hnodup := hb.nodup
    rw [pages_two] at hnodup
    rintro heq
    exact (List.nodup_cons.mp hnodup).1 (by simp [heq])
  rw [Leaf.node_join]
  exact (View.put_node_ne _ _ hfp).trans (View.put_node_same ..)

/-- The merge below a root above leaves. -/
theorem yields_two_iff (hs : ShowsFit s v) {b : Branch Leaf} (ht : Held (h := 1) v b) (hb : Ready v (h := 1) b) :
    Yields (BTree.merge (b.child key).pid [(b.pid, if b.goesFirst key then 0 else -1)] s) (records (h := 1) b) ↔
      Finishes v.maxSize.toNat key (h := 1) b := by
  have hkeys : b.keys ≠ [] := by simpa [Branch.keys] using (show b.kids ≠ [] from hb.keyed.1)
  constructor
  · rintro ⟨hok, hfit, hread⟩ hj
    set r := BTree.merge (b.child key).pid [(b.pid, if b.goesFirst key then 0 else -1)] s with hr
    have hroom : 2 ≤ b.kids.length ∨ b.goesFirst key = false := by
      by_contra hnot
      rw [not_or, Bool.not_eq_false, Nat.not_le] at hnot
      obtain ⟨hone, hg⟩ := hnot
      obtain ⟨f, sep, ks, hks, hf⟩ := Branch.child_of_first hg
      obtain ⟨pid, flags, next, kids, last⟩ := b
      obtain rfl : kids = (f, sep) :: ks := hks
      obtain rfl : ks = [] := List.length_eq_zero_iff.mp (by simp only [List.length_cons] at hone; omega)
      obtain ⟨hne, hle⟩ := hj
      rw [Branch.neighbour_onlyFirst hg] at hne hle
      rw [hf] at hle
      have hrun : BTree.merge f.pid [(pid, 0)] s = (.ok (), r.2) := by
        rw [hf, hg, if_pos rfl] at hr
        exact hr.symm.trans (Prod.ext hok rfl)
      obtain ⟨v₁, n, root, s₁, hs₁, hw, hn, htail⟩ := merge_wrecksFirst hs hb hne hle hrun hfit
      rw [BTree.mergeTail_nil_of_ne hn] at htail
      cases htail
      exact hw.not_yields hb.stored hs₁.shows (hw.same.rootPid.trans ht.root) hread
    exact ⟨hroom, joinFits_of_merge hs.shows hb hj hroom hfit⟩
  · intro hfin
    by_cases hset : Settles v.maxSize.toNat key (h := 0) b
    · obtain ⟨v₁, b', root, s₁, hs₁, hreb, hkept, hrun⟩ := merge_settles hs hb hset []
      have hne : (node (h := 1) b').keys ≠ [] := by
        rw [show (node (h := 1) b').keys = b'.keys from rfl, hkept]
        exact hset.keptKeys_ne hkeys
      rw [hrun, BTree.mergeTail_nil_of_ne hne, ← hreb.records]
      exact (hreb.held ht).yields hs₁
    · rw [Settles, Classical.not_imp] at hset
      obtain ⟨hj, hnot⟩ := hset
      obtain ⟨hroom, hfit⟩ := hfin hj
      have hone : b.kids.length = 1 := by
        have hpos := List.length_pos_iff.mpr (show b.kids ≠ [] from hb.keyed.1)
        by_contra hne
        exact hnot ⟨by omega, hfit⟩
      have hg := hroom.resolve_left (by omega)
      have hl := Branch.child_of_last hg
      obtain ⟨hne, hle⟩ := hj
      obtain ⟨pid, flags, next, kids, last⟩ := b
      obtain ⟨⟨f, sep⟩, rfl⟩ := List.length_eq_one_iff.mp (show kids.length = 1 from hone)
      rw [JoinFits, Branch.neighbour_onlyLast hg, hl] at hfit
      rw [Branch.neighbour_onlyLast hg] at hne hle
      rw [hl] at hle ⊢
      rw [hg, if_neg (by simp)]
      exact merge_joinsOnly hs hb hne hle hfit

/-! ## Trees of more levels -/

theorem fitsPage_fused {l c : Tree (h + 1)} {k : BTreeKey} :
    (l.node.absorbInner k c.node).FitsPage ↔ nodeSize false (Branch.keys l ++ [k] ++ Branch.keys c) ≤ 4096 := by
  have hkeys : (node (h := h + 1) (Branch.fuse l k c)).keys = Branch.keys l ++ [k] ++ Branch.keys c := by
    simp [node, Branch.fuse, Branch.keys]
  rw [← node_fuse, fitsPage_iff, hkeys]
  rfl

/-- The two children of a root with one key are fused, and the left one becomes the root. -/
theorem merge_fuses (hs : ShowsFit s v) {pid next : PageId} {flags : UInt8} {l c : Tree (h + 1)} {k : BTreeKey}
    (ht : Held (h := h + 2) v ⟨pid, flags, next, [(l, k)], c⟩)
    (hroot : (node (h := h + 2) ⟨pid, flags, next, [(l, k)], c⟩).FitsPage)
    (hle : (Branch.keys c).length + 1 + (Branch.kids l).length + 1 ≤ v.maxSize.toNat + 1)
    (hfit : nodeSize false (Branch.keys l ++ [k] ++ Branch.keys c) ≤ 4096) :
    Yields (BTree.merge c.pid [(pid, -1)] s) (records (h := h + 2) ⟨pid, flags, next, [(l, k)], c⟩) := by
  have hl : Stored v l := ht.stored.2.2 l (by simp [Branch.children])
  have hc : Stored v c := ht.stored.2.2 c (by simp [Branch.children])
  have hlen : l.node.keys.length = (Branch.kids l).length := List.length_map ..
  have hq : BTree.sibPid ([(l, k)].map (·.1.pid)) c.node (decide ((-1 : Int) = -1)) = .ok l.pid := rfl
  obtain ⟨s₁, hrun, hs₁⟩ := BTree.merge_inner_left_fit hs ht.stored.1 ht.stored.2.1 rfl hroot hc.root.1
    hc.root.2 hq hl.root.1 hl.root.2 rfl rfl rfl rfl (by rw [hlen]; exact hle) (fitsPage_fused.mpr hfit) []
  obtain ⟨s₂, hrun₂, hs₂⟩ := mergeTail_collapse hs₁
    (show (node (h := h + 2) ⟨pid, flags, next, [(l, k)], c⟩).demote.keys = [] from rfl) pid l.pid
  have hrecords : records (h := h + 2) ⟨pid, flags, next, [(l, k)], c⟩ = records (h := h + 1) (Branch.fuse l k c) := by
    simp [records_branch, Branch.children, Branch.fuse]
  rw [hrun, hrun₂, hrecords]
  rw [← node_fuse] at hs₂
  exact (ht.fuse _).yields hs₂

/-- What is read after a merge that fused the two nodes below the root, with a node `n` that lacks records in place
of the last one. -/
theorem not_yields_fused {pid next : PageId} {flags : UInt8} {l c : Tree (h + 1)} {k : BTreeKey} {n : BTreePage}
    (hb : Ready v (h := h + 2) ⟨pid, flags, next, [(l, k)], c⟩) (hw : Wrecked v v' c n) (x : BTreePage)
    (hs : Shows s (((v'.put l.pid (l.node.absorbInner k n)).put pid x).collapse l.pid)) :
    readRecords s.bpm s.rootPid ≠ some (records (h := h + 2) ⟨pid, flags, next, [(l, k)], c⟩) := by
  intro hread
  have hl : Stored v l := hb.stored.2.2 l (by simp [Branch.children])
  have hc : Stored v c := hb.stored.2.2 c (by simp [Branch.children])
  have hnodup := hb.nodup
  have hpages : pages (h := h + 2) ⟨pid, flags, next, [(l, k)], c⟩ =
      pid :: (l.pid :: (Branch.children l).flatMap pages ++ c.pages) := by
    simp [pages, Branch.children, Tree.pid]
  rw [hpages, List.cons_append, List.nodup_cons, List.nodup_cons, List.nodup_append] at hnodup
  simp only [List.mem_cons, List.mem_append, not_or] at hnodup
  obtain ⟨⟨hpl, hpb, hpc⟩, ⟨hlb, hlc⟩, -, -, hbc⟩ := hnodup
  -- a page below the two that was not written
  have hkept : ∀ q, q ≠ 0 → q ≠ pid → q ≠ l.pid → s.bpm.nodeAt q = v'.node q := fun q h0 h₁ h₂ =>
    (hs.node q h0).trans ((View.put_node_ne _ _ h₁).trans (View.put_node_ne _ _ h₂))
  have hbelow : ∀ x ∈ Branch.children l, ∀ q ∈ x.pages, q ∈ (Branch.children l).flatMap pages :=
    fun x hx q hq => List.mem_flatMap.mpr ⟨x, hx, hq⟩
  have hdl : ∀ x ∈ Branch.children l, ∀ q ∈ x.pages, s.bpm.nodeAt q = v'.node q := by
    intro x hx q hq
    have hmem := hbelow x hx q hq
    exact hkept q ((hl.2.2 x hx).pages_ne_zero q hq) (fun heq => hpb (heq ▸ hmem)) fun heq => hlb (heq ▸ hmem)
  have hdc : ∀ q ∈ c.pages, s.bpm.nodeAt q = v'.node q := fun q hq =>
    hkept q (hc.pages_ne_zero q hq) (fun heq => hpc (heq ▸ hq)) fun heq => hlc (heq ▸ hq)
  have hstored : ∀ x ∈ Branch.children l, Stored v' x := fun x hx =>
    (hl.2.2 x hx).congr fun q hq => hw.others q fun hmem => hbc q (hbelow x hx q hq) q hmem rfl
  have hnode : s.bpm.nodeAt l.pid = some (l.node.absorbInner k n) :=
    (hs.node _ hl.root.1).trans ((View.put_node_ne _ _ (Ne.symm hpl)).trans (View.put_node_same ..))
  have hinner : (l.node.absorbInner k n).isLeaf = false := by
    obtain ⟨cs, hcs⟩ := BTreePage.values_of_not_isLeaf (by rw [hw.inner]; simp)
    rw [BTreePage.absorbInner_eq rfl hcs]
    rfl
  rw [hs.rootPid] at hread
  have hlen := hw.lacks.fused hw.inner hstored hdl hdc
    ((readsPage_of_readRecords hl.root.1 hread).children hnode hinner)
  rw [records_branch] at hlen
  simp only [Branch.children, List.map_cons, List.map_nil, List.cons_append, List.nil_append, List.flatMap_cons,
    List.flatMap_nil, List.append_nil, List.length_append] at hlen
  omega

/-- A root that has lost its last child keeps a key. -/
theorem demote_keys_ne {b : Branch (Tree h)} (htwo : 2 ≤ b.kids.length) :
    (node (h := h + 1) b).demote.keys ≠ [] := by
  have hlen : (node (h := h + 1) b).demote.keys.length = b.kids.length - 1 := by
    simp [BTreePage.demote, node, Branch.keys]
  rw [← List.length_pos_iff, hlen]
  omega

/-- A merge below a root above inner nodes that returned with all the records. -/
theorem finishes_of_merge (hs : ShowsFit s v) {b : Tree (h + 2)} (ht : Held v b) (hb : Ready v b)
    (hrun : BTree.merge (route key b).pid (crumbs key b) s = (.ok (), s')) (hfit : AllFit s')
    (hread : readRecords s'.bpm s'.rootPid = some b.records) : Finishes v.maxSize.toNat key b := by
  have hk : Branch.kids b ≠ [] := hb.keyed.1
  have hne : (node (h := h + 2) b).keys ≠ [] := by simpa [node, Branch.keys] using hk
  have hpos := List.length_pos_iff.mpr hk
  have hclimb := merge_climb key b [] s
  rw [List.append_nil, hrun] at hclimb
  by_cases hbelow : Settles v.maxSize.toNat key (Branch.child key b)
  · obtain ⟨v₁, c, root₁, s₁, hs₁, hc, hkeys, hrun₁⟩ := climb_settles hs (hb.child key) hbelow
      [(Branch.pid b, if Branch.goesFirst key b then 0 else -1)]
    have hstep : BTree.merge (Branch.child key b).pid [(Branch.pid b, if Branch.goesFirst key b then 0 else -1)] s₁ =
        (.ok (), s') := hrun₁.symm.trans hclimb.symm
    refine ⟨hbelow, ?_⟩
    rcases merge_inner_cases hs₁ hb hc.others (hc.pid ▸ hc.stored.root.2) rfl hc.next hstep hfit
      with ⟨hkeep, -⟩ | ⟨hg, k, s₂, hlast, hstored, hs₂, htail⟩
    · refine .inl ?_
      rw [StaysApart, ← hkeys, ← hc.same.maxSize]
      exact hkeep
    · -- the two are fused, and the root has lost both if it has another child
      have hone : (Branch.kids b).length = 1 := by
        by_contra hmore
        rw [BTree.mergeTail_nil_of_ne (demote_keys_ne (by omega))] at htail
        cases htail
        have hw := wrecked_demote key hb hc.others hc.same ((Branch.neighbour key b).node.absorbInner k c.node)
        exact hw.not_yields hb.stored hs₂.shows (hw.same.rootPid.trans ht.root) hread
      have hlen : (Branch.keys b).length = 1 := (List.length_map ..).trans hone
      obtain ⟨k', hk'⟩ := List.length_eq_one_iff.mp hlen
      rw [hk'] at hlast
      cases hlast
      refine .inr ⟨hg, hone, ?_⟩
      rw [hk', ← hkeys]
      exact fitsPage_fused.mp hstored
  · obtain ⟨v₁, n, root₁, s₁, hs₁, hw, hrun₁⟩ := climb_wrecks hs (hb.child key) hbelow hclimb.symm hfit
    have hstep : BTree.merge (Branch.child key b).pid [(Branch.pid b, if Branch.goesFirst key b then 0 else -1)] s₁ =
        (.ok (), s') := hrun₁
    rcases merge_inner_cases hs₁ hb hw.others hw.node hw.inner hw.next hstep hfit
      with ⟨-, root, s₂, hs₂, htail⟩ | ⟨hg, k, s₂, hlast, -, hs₂, htail⟩
    · rw [BTree.mergeTail_nil_of_ne hne] at htail
      cases htail
      exact absurd hread ((hw.above hb).not_yields hb.stored hs₂.shows (hw.same.rootPid.trans ht.root))
    · by_cases hone : (Branch.kids b).length = 1
      · obtain ⟨pid, flags, next, kids, last⟩ := b
        obtain ⟨⟨l, k'⟩, rfl⟩ := List.length_eq_one_iff.mp (show kids.length = 1 from hone)
        obtain rfl : k' = k := Option.some.inj hlast
        have hc := Branch.child_of_last hg
        rw [hc] at hw
        rw [Branch.neighbour_onlyLast hg] at hs₂ htail
        rcases mergeTail_nil hs₂.shows htail with ⟨hsome, -⟩ | ⟨-, hs'⟩
        · exact absurd rfl hsome
        · exact absurd hread (not_yields_fused hb hw _ hs')
      · rw [BTree.mergeTail_nil_of_ne (demote_keys_ne (by omega))] at htail
        cases htail
        have hlost := wrecked_demote key hb hw.others hw.same ((Branch.neighbour key b).node.absorbInner k n)
        exact absurd hread (hlost.not_yields hb.stored hs₂.shows (hlost.same.rootPid.trans ht.root))

/-- The merges below a root above inner nodes. -/
theorem yields_of_finishes (hs : ShowsFit s v) {b : Tree (h + 2)} (ht : Held v b) (hb : Ready v b)
    (hfin : Finishes v.maxSize.toNat key b) :
    Yields (BTree.merge (route key b).pid (crumbs key b) s) b.records := by
  have hk : Branch.kids b ≠ [] := hb.keyed.1
  have hne : (node (h := h + 2) b).keys ≠ [] := by simpa [node, Branch.keys] using hk
  have hclimb := merge_climb key b [] s
  rw [List.append_nil] at hclimb
  rw [hclimb]
  obtain ⟨hbelow, htop⟩ := hfin
  obtain ⟨v₁, c, root₁, s₁, hs₁, hc, hkeys, hrun₁⟩ := climb_settles hs (hb.child key) hbelow
    [(Branch.pid b, if Branch.goesFirst key b then 0 else -1)]
  have hstep : BTree.merge (route key (Branch.child key b)).pid (crumbs key (Branch.child key b) ++
      [(Branch.pid b, if Branch.goesFirst key b then 0 else -1)]) s =
        BTree.merge c.pid [(Branch.pid b, if Branch.goesFirst key b then 0 else -1)] s₁ := by
    rw [hrun₁, hc.pid]
    rfl
  have hreb := hc.setChild hb
  have hheld := hreb.held ht
  rw [hstep, ← hreb.records]
  by_cases hapart : StaysApart v.maxSize.toNat key b
  · rw [StaysApart, ← hkeys, ← hc.same.maxSize] at hapart
    obtain ⟨root, s₂, hs₂, hrun₂⟩ := merge_keepsInner hs₁ hb hc hapart []
    rw [hrun₂, BTree.mergeTail_nil_of_ne hne]
    exact hheld.yields hs₂
  · obtain ⟨hg, hone, hfit⟩ := htop.resolve_left hapart
    rw [StaysApart, ← hkeys, ← hc.same.maxSize] at hapart
    have hroot := hb.fits.1
    have heq : node (h := h + 2) (Branch.setChild key b c) = node (h := h + 2) b := node_setChild key b hc.pid
    rw [← heq] at hroot
    obtain ⟨pid, flags, next, kids, last⟩ := b
    obtain ⟨⟨l, k⟩, rfl⟩ := List.length_eq_one_iff.mp (show kids.length = 1 from hone)
    have hset := Branch.setChild_of_last hg c
    rw [Branch.neighbour_onlyLast hg, ← hkeys] at hfit
    rw [Branch.neighbour_onlyLast hg] at hapart
    rw [hset] at hheld hroot ⊢
    rw [hg, if_neg (by simp)]
    exact merge_fuses hs₁ hheld hroot (Nat.le_of_not_lt hapart) hfit

/-! ## The removal -/

theorem Tree.Fits.setLeaf {t : Tree h} (hf : Fits t) {l : Leaf} (hl : l.node.FitsPage)
    (hpid : l.pid = (route key t).pid) : Fits (setLeaf key t l) := by
  induction h with
  | zero => exact hl
  | succ h ih =>
    refine ⟨?_, Branch.forall_setChild hf.2 (ih (hf.2 _ (Branch.child_mem key t)) hpid)⟩
    have hnode : node (h := h + 1) (Branch.setChild key t (Tree.setLeaf key (Branch.child key t) l)) = t.node :=
      node_setChild key t (setLeaf_pid _ hpid)
    show (node (h := h + 1) (Branch.setChild key t (Tree.setLeaf key (Branch.child key t) l))).FitsPage
    rw [hnode]
    exact hf.1

theorem setLeaf_next {t : Tree h} {l : Leaf} (hpid : l.pid = (route key t).pid) (hnext : l.next = (route key t).next) :
    (setLeaf key t l).node.next = t.node.next := by
  cases h with
  | zero => exact hnext
  | succ h => exact congrArg BTreePage.next (node_setChild key t (setLeaf_pid _ hpid))

theorem Tree.Siblings.setLeaf {t : Tree h} (hs : Siblings t) {l : Leaf} (hpid : l.pid = (route key t).pid)
    (hnext : l.next = (route key t).next) : Siblings (setLeaf key t l) := by
  induction h with
  | zero => trivial
  | succ h ih =>
    refine ⟨?_, Branch.forall_setChild hs.2 (ih (hs.2 _ (Branch.child_mem key t)) hpid hnext)⟩
    -- the new child has the page and the next pointer of the old one
    have hchain : ∀ cs : List (Tree h), cs.IsChain (fun c d => c.node.next = d.pid) ↔
        (cs.map fun c => (c.pid, c.node.next)).IsChain fun a b => a.2 = b.1 := fun cs =>
      (List.isChain_map (R := fun a b => a.2 = b.1) fun c : Tree h => (c.pid, c.node.next)).symm
    have hold := (hchain _).mp hs.1
    rw [Branch.children_eq key t, List.map_append, List.map_cons] at hold
    refine (hchain _).mpr ?_
    show (((Branch.setChild key t (Tree.setLeaf key (Branch.child key t) l)).children).map _).IsChain _
    rw [Branch.children_setChild, List.map_append, List.map_cons, setLeaf_pid (Branch.child key t) hpid,
      setLeaf_next (t := Branch.child key t) hpid hnext]
    exact hold

theorem crumbs_setLeaf (t : Tree h) {l : Leaf} (hpid : l.pid = (route key t).pid) :
    crumbs key (setLeaf key t l) = crumbs key t := by
  induction h with
  | zero => rfl
  | succ h ih =>
    show crumbs key (Branch.child key (Branch.setChild key t _)) ++ [_] = crumbs key (Branch.child key t) ++ [_]
    rw [Branch.child_setChild, ih _ hpid]
    show _ ++ [((Branch.setChild key t _).pid, if (Branch.setChild key t _).goesFirst key then (0 : Int) else -1)] = _
    rw [Branch.setChild_pid, Branch.goesFirst_setChild]

/-- The record is taken out of its leaf. -/
theorem Held.remove_run (hs : ShowsFit s v) {t : Tree h} (ht : Held v t) {m : Nat} (hw : WellFormed m t)
    (hsib : Siblings t) (hfits : Fits t) (hkey : key ∈ (route key t).node.keys) :
    ∃ s₁ v₁, BTree.remove key s = BTree.removeTail (route key t).pid (crumbs key t) s₁ ∧ ShowsFit s₁ v₁ ∧
      v₁.maxSize = v.maxSize ∧ Held v₁ (t.without key) ∧ Ready v₁ (t.without key) := by
  have hpath := ht.root ▸ ht.stored.path hw.keyed key
  have hlen : (crumbs key t).length < 2 ^ 32 := by
    rw [crumbs_length]
    exact ht.stored.height_lt
  obtain ⟨hp0, hpn, hleaf⟩ := hpath.leaf_spec
  obtain ⟨hpair, hcount, -⟩ := hs.paired hp0 hpn
  obtain ⟨hpair', hcount'⟩ := BTreePage.dropRecord_paired hleaf hpair hcount
    (BTree.keyIndex (route key t).node.keys key)
  have hrun := remove_eq hs.shows hpath hlen hkey
  rw [← node_erase hw.route_sorted] at hrun hpair' hcount'
  have hroute : ∀ {k : Nat} {u : Tree k}, Fits u → (route key u).node.FitsPage := by
    intro k u hu
    induction k with
    | zero => exact hu
    | succ k ih => exact ih (hu.2 _ (Branch.child_mem key u))
  have hfit : ((route key t).erase key).node.FitsPage :=
    (hroute hfits).sublist rfl (List.Sublist.map _ List.filter_sublist)
  obtain ⟨s₁, hr₁, hs₁⟩ := BTree.flushNode_fit hs hp0 (hs.live_of_node hp0 hpn) hpair' hfit
  rw [BTreePage.trim_eq_self hcount'] at hs₁
  rw [Prog.bind_ok hr₁] at hrun
  have ht₁ : Held _ (t.without key) := ht.setLeaf (l := (route key t).erase key) rfl
  exact ⟨s₁, _, hrun, hs₁, rfl, ht₁, ht₁.stored, ht₁.nodup, hw.keyed.setLeaf _, hsib.setLeaf rfl rfl,
    hfits.setLeaf hfit rfl⟩

/-- The merges after the record was taken out. -/
theorem yields_merges_iff (key : BTreeKey) (hs : ShowsFit s v) {t : Tree h} (ht : Held v t) (hb : Ready v t) :
    Yields (BTree.removeTail (route key t).pid (crumbs key t) s) t.records ↔ Finishes v.maxSize.toNat key t := by
  match h, t with
  | 0, t => exact ⟨fun _ => trivial, fun _ => ht.yields hs⟩
  | 1, t => exact yields_two_iff hs ht hb
  | h + 2, t =>
    have htail : BTree.removeTail (route key t).pid (crumbs key t) = BTree.merge (route key t).pid (crumbs key t) := by
      obtain ⟨rest, hrest⟩ := crumbs_eq_cons key t
      rw [hrest]
      rfl
    rw [htail]
    refine ⟨fun ⟨hok, hfit, hread⟩ => ?_, yields_of_finishes hs ht hb⟩
    exact finishes_of_merge hs ht hb (Prod.ext hok rfl) hfit hread

end Top

/-- The removal of a key that its search comes to. -/
theorem yields_remove_iff {s : BTree Disk} {v : View} (hs : ShowsFit s v) {h : Nat} {t : Tree h} (ht : Held v t)
    (hw : WellFormed v.maxSize.toNat t) (hsib : Siblings t) (hfits : Fits t) {key : BTreeKey}
    (hkey : key ∈ (route key t).node.keys) :
    Yields (BTree.remove key s) (t.records.filter fun r => r.1 ≠ key) ↔
      Finishes v.maxSize.toNat key (t.without key) := by
  obtain ⟨s₁, v₁, hrun, hs₁, hmax, ht₁, hb₁⟩ := ht.remove_run hs hw hsib hfits hkey
  have hroute : route key (t.without key) = (route key t).erase key := route_setLeaf ..
  have hcrumbs : crumbs key (t.without key) = crumbs key t := crumbs_setLeaf t rfl
  have hmerges := yields_merges_iff key hs₁ ht₁ hb₁
  rw [hroute, hcrumbs, hmax] at hmerges
  rw [hrun, ← records_erase hw.sorted hkey]
  exact hmerges

/-- The removal of `key` completes, every node that it serializes fits in a page, and the records of the index are
those of `recs` with other keys. -/
def RemovesExactly (s : BTree Disk) (key : BTreeKey) (recs : List (BTreeKey × RID)) : Prop :=
  Yields (BTree.remove key { s with serialized := [] }) (recs.filter fun r => r.1 ≠ key)

/-- **Removal.** In a well-formed tree, a removal takes out exactly the record of its key if and only if the search,
which takes first and last children only, comes to a leaf with the key, and the merges up from it finish. -/
theorem remove_exact_iff {s : BTree Disk} {v : View} (hs : Shows s v) {h : Nat} {t : Tree h} (ht : Held v t)
    (hw : WellFormed v.maxSize.toNat t) (hsib : Siblings t) (hfits : Fits t) (key : BTreeKey) :
    RemovesExactly s key t.records ↔
      key ∈ (route key t).node.keys ∧ Finishes v.maxSize.toNat key (t.without key) := by
  have hs₀ := hs.started
  by_cases hkey : key ∈ (route key t).node.keys
  · exact (yields_remove_iff hs₀ ht hw hsib hfits hkey).trans ⟨fun hfin => ⟨hkey, hfin⟩, And.right⟩
  · refine ⟨fun hyields => ?_, fun hcond => absurd hcond.1 hkey⟩
    have hpath := ht.root ▸ ht.stored.path hw.keyed key
    have hlen : (crumbs key t).length < 2 ^ 32 := by
      rw [crumbs_length]
      exact ht.stored.height_lt
    have hfails := remove_fails (findLeaf_of_path hs₀.shows hpath hlen) hkey
    obtain ⟨e, s', hrun⟩ := hfails
    have hok := hyields.1
    rw [hrun] at hok
    cases hok

/-! ## A key of an outer leaf below the root -/

/-- The removal completes, serializes only nodes that fit in a page, and leaves a well-formed tree over the records
without the one of the key; with `ends`, the last leaf names no leaf. -/
def RemoveKeeps (ends : Prop) (m : Nat) (s : BTree Disk) (key : BTreeKey) (t : Branch Leaf) : Prop :=
  AllFit (BTree.remove key { s with serialized := [] }).2 ∧
    ∃ next, LeavesTree m ((records (h := 1) t).filter fun r => r.1 ≠ key) next
      (BTree.remove key { s with serialized := [] }) ∧ (ends → next = 0)

/-- A tree of two levels whose leaves are linked has linked siblings. -/
theorem Tree.WellFormed.siblings {m : Nat} {t : Branch Leaf} (hw : WellFormed m (h := 1) t) : Siblings (h := 1) t := by
  have hlinked := hw.linked
  rw [leaves_two] at hlinked
  exact ⟨hlinked, fun _ _ => trivial⟩

theorem RemoveKeeps.removesExactly {ends : Prop} {m : Nat} {s : BTree Disk} {key : BTreeKey} {t : Branch Leaf}
    (h : RemoveKeeps ends m s key t) : RemovesExactly s key (records (h := 1) t) := by
  obtain ⟨hlog, next, ⟨hok, v, k, t', hk, hs, ht, -, hrecs, -⟩, -⟩ := h
  exact ⟨hok, hlog, hrecs ▸ ht.readRecords hs ht.stored.height_lt⟩

section Outer

variable {m : Nat} {key : BTreeKey} {t : Branch Leaf}

theorem goesFirst_without (key : BTreeKey) (t : Branch Leaf) :
    Branch.goesFirst (α := Leaf) key (Tree.without key (h := 1) t) = t.goesFirst key := Branch.goesFirst_setChild ..

/-- The first of two leaves has lost the record of `key`: when it is joined with the other one. -/
theorem joins_without_first {pid next : PageId} {flags : UInt8} {f last : Leaf} {sep : BTreeKey}
    (hw : WellFormed m (h := 1) ⟨pid, flags, next, [(f, sep)], last⟩) (hf : key ∈ f.node.keys) :
    Joins m key (Tree.without key (h := 1) ⟨pid, flags, next, [(f, sep)], last⟩) ↔
      last.records ≠ [] ∧ f.records.length - 1 + last.records.length ≤ m := by
  have hsorted : (f.records.map (·.1)).Pairwise BTreeKey.Lt :=
    hw.sorted.sublist (List.Sublist.map _ (by rw [records_two]; simp))
  have hlt := hw.goesFirst hf
  have hset : Tree.without key (h := 1) ⟨pid, flags, next, [(f, sep)], last⟩ =
      ⟨pid, flags, next, [(f.erase key, sep)], last⟩ := by
    rw [Tree.without, hw.route_first hf]
    simp [setLeaf, Branch.setChild, hlt]
  have hchild : Branch.child key (⟨pid, flags, next, [(f.erase key, sep)], last⟩ : Branch Leaf) = f.erase key := by
    simp [Branch.child, hlt]
  rw [hset, Joins, Branch.neighbour_onlyFirst (by simp [Branch.goesFirst, hlt]), hchild, length_erase hsorted hf]

/-- The last leaf is lost if and only if the first one is joined with it. -/
theorem losesLast_iff (hw : WellFormed m (h := 1) t)
    (hkey : (∃ c ∈ t.children.head?, key ∈ c.node.keys) ∨ key ∈ t.last.node.keys) :
    LosesLast m key t ↔ Joins m key (Tree.without key (h := 1) t) ∧ t.kids.length < 2 ∧ t.goesFirst key = true := by
  obtain ⟨pid, flags, next, kids, last⟩ := t
  obtain ⟨⟨f, sep⟩, ks, rfl⟩ := List.exists_cons_of_ne_nil (show kids ≠ [] from hw.keyed.1)
  constructor
  · rintro ⟨f', sep', heq, hf, hne, hle⟩
    cases heq
    exact ⟨(joins_without_first hw hf).mpr ⟨hne, hle⟩, by simp, by simp [Branch.goesFirst, hw.goesFirst hf]⟩
  · rintro ⟨hj, hone, hg⟩
    obtain rfl : ks = [] := List.length_eq_zero_iff.mp (by simp only [List.length_cons] at hone; omega)
    have hf : key ∈ f.node.keys := by
      rcases hkey with ⟨c, hc, hkey⟩ | hkey
      · obtain rfl : f = c := by simpa [Branch.children] using hc
        exact hkey
      · rw [hw.goesFirst_last hkey] at hg
        cases hg
    obtain ⟨hne, hle⟩ := (joins_without_first hw hf).mp hj
    exact ⟨f, sep, rfl, hf, hne, hle⟩

theorem finishes_iff (hw : WellFormed m (h := 1) t)
    (hkey : (∃ c ∈ t.children.head?, key ∈ c.node.keys) ∨ key ∈ t.last.node.keys) :
    Finishes m key (h := 1) (Tree.without key (h := 1) t) ↔ ¬ LosesLast m key t ∧
      (Joins m key (Tree.without key (h := 1) t) → JoinFits key (Tree.without key (h := 1) t)) := by
  have hlen : (Branch.kids (Tree.without key (h := 1) t)).length = t.kids.length := by
    have hkeys := congrArg List.length (Branch.setChild_keys key t ((route key (h := 1) t).erase key))
    rwa [Branch.keys, Branch.keys, List.length_map, List.length_map] at hkeys
  rw [losesLast_iff hw hkey]
  simp only [Finishes, goesFirst_without, hlen]
  grind

/-- The search for a key of the first or the last leaf comes to it. -/
theorem mem_route_outer (hw : WellFormed m (h := 1) t)
    (hkey : (∃ c ∈ t.children.head?, key ∈ c.node.keys) ∨ key ∈ t.last.node.keys) :
    key ∈ (route key (h := 1) t).node.keys := by
  rcases hkey with ⟨f, hf, hkey⟩ | hkey
  · exact hw.mem_route_head hf hkey
  · have hlast : route key (h := 1) t = t.last := Branch.child_of_last (hw.goesFirst_last hkey)
    rw [hlast]
    exact hkey

/-- A key of the first leaf is not in the last one too. -/
theorem not_joinsLast (hw : WellFormed m (h := 1) t) {f : Leaf} {sep : BTreeKey} {ks : List (Leaf × BTreeKey)}
    (hkids : t.kids = (f, sep) :: ks) (hkey : key ∈ f.node.keys) : ¬ JoinsLast m key t := by
  rintro ⟨_, _, _, _, hlast, _⟩
  exact hw.goesLast hlast sep (by simp [Branch.keys, hkids]) (hw.goesFirst_head hkids hkey)

end Outer

theorem twoLeaves_siblings : Siblings (h := 1) twoLeaves :=
  ⟨by simp [twoLeaves, Branch.children, Tree.node, Leaf.node, oneRecord, Tree.pid], fun _ _ => trivial⟩

theorem twoLeaves_fits : Fits (h := 1) twoLeaves := by
  refine ⟨by decide, fun c hc => ?_⟩
  simp only [twoLeaves, Branch.children, List.map_cons, List.map_nil, List.cons_append, List.nil_append,
    List.mem_cons, List.not_mem_nil, or_false] at hc
  rcases hc with rfl | rfl
  · exact (by decide : (oneRecord 1 2 65).node.FitsPage)
  · exact (by decide : (oneRecord 2 0 68).node.FitsPage)

/-- The first leaf is emptied: nothing can be read below the root any more. -/
theorem twoLeaves_notRemoved :
    ¬ RemovesExactly (indexOf 2 3 twoLeavesNodes) (byteKey 65) (records (h := 1) twoLeaves) := by
  rintro ⟨-, -, hread⟩
  have hlost : (readRecords (BTree.remove (byteKey 65) (indexOf 2 3 twoLeavesNodes)).2.bpm
      (BTree.remove (byteKey 65) (indexOf 2 3 twoLeavesNodes)).2.rootPid).isNone = true := by
    decide +kernel
  have hsame : { indexOf 2 3 twoLeavesNodes with serialized := [] } = indexOf 2 3 twoLeavesNodes := rfl
  rw [hsame] at hread
  rw [hread] at hlost
  cases hlost

/-- The last leaf is emptied and fused with the first one, and the root is dropped. -/
theorem remove_exact_collapse : RemovesExactly (indexOf 2 3 twoLeavesNodes) (byteKey 68) (records (h := 1) twoLeaves) :=
  (remove_exact_iff twoLeaves_shows twoLeaves_held twoLeaves_wellFormed twoLeaves_siblings twoLeaves_fits
    (byteKey 68)).mpr ⟨by decide, fun _ => ⟨.inr rfl, fitsPage_absorb.mp (by decide)⟩⟩

/-- The first leaf is emptied: the root keeps its key and has no last child any more. -/
theorem remove_exact_fails :
    Shows (indexOf 2 3 twoLeavesNodes) (viewOf 2 3 twoLeavesNodes) ∧
      Held (h := 1) (viewOf 2 3 twoLeavesNodes) twoLeaves ∧ WellFormed 2 (h := 1) twoLeaves ∧
      Siblings (h := 1) twoLeaves ∧ Fits (h := 1) twoLeaves ∧ byteKey 65 ∈ (oneRecord 1 2 65).node.keys ∧
      ¬ RemovesExactly (indexOf 2 3 twoLeavesNodes) (byteKey 65) (records (h := 1) twoLeaves) :=
  ⟨twoLeaves_shows, twoLeaves_held, twoLeaves_wellFormed, twoLeaves_siblings, twoLeaves_fits, by decide,
    twoLeaves_notRemoved⟩

/-- A removal of a key of the first or the last leaf leaves a well-formed tree without its record if and only if the
last leaf is not lost and a leaf that is joined fits in a page; for the last leaf to name no leaf again, it must not
have been joined either. -/
theorem remove_keeps_iff {s : BTree Disk} {v : View} (hs : Shows s v) {t : Branch Leaf} (ht : Held (h := 1) v t)
    (hw : WellFormed v.maxSize.toNat (h := 1) t) (hfits : Fits (h := 1) t) {key : BTreeKey}
    (hkey : (∃ c ∈ t.children.head?, key ∈ c.node.keys) ∨ key ∈ t.last.node.keys) (ends : Prop)
    (hends : ends → t.last.next = 0) :
    RemoveKeeps ends v.maxSize.toNat s key t ↔
      ¬ LosesLast v.maxSize.toNat key t ∧
        (Joins v.maxSize.toNat key (Tree.without key (h := 1) t) → JoinFits key (Tree.without key (h := 1) t)) ∧
        (ends → ¬ JoinsLast v.maxSize.toNat key t) := by
  have hyields := yields_remove_iff hs.started ht hw hw.siblings hfits (mem_route_outer hw hkey)
  have hfin := finishes_iff hw hkey
  have hs₀ := hs.started.shows
  rcases hkey with ⟨f, hf, hkey⟩ | hkey
  · obtain ⟨⟨f', sep⟩, ks, hkids⟩ := List.exists_cons_of_ne_nil (show t.kids ≠ [] from hw.keyed.1)
    obtain rfl : f' = f := by simpa [Branch.children, hkids] using hf
    constructor
    · intro hkeeps
      obtain ⟨hlost, hfit⟩ := hfin.mp (hyields.mp hkeeps.removesExactly)
      exact ⟨hlost, hfit, fun _ => not_joinsLast hw hkids hkey⟩
    · rintro ⟨hlost, hfit, -⟩
      have hlog := (hyields.mpr (hfin.mpr ⟨hlost, hfit⟩)).2.1
      exact ⟨hlog, t.last.next, remove_first hs₀ ht hw hkids hkey hlost hlog, hends⟩
  · constructor
    · intro hkeeps
      obtain ⟨hlost, hfit⟩ := hfin.mp (hyields.mp hkeeps.removesExactly)
      obtain ⟨p, hleaves, hjoins, -⟩ := remove_last hs₀ ht hw hkey hkeeps.1
      obtain ⟨-, p', hleaves', hzero⟩ := hkeeps
      exact ⟨hlost, hfit, fun he hjoin => hjoins hjoin ((hleaves.next_eq hleaves').trans (hzero he))⟩
    · rintro ⟨hlost, hfit, hnot⟩
      have hlog := (hyields.mpr (hfin.mpr ⟨hlost, hfit⟩)).2.1
      obtain ⟨p, hleaves, -, hkept⟩ := remove_last hs₀ ht hw hkey hlog
      exact ⟨hlog, p, hleaves, fun he => (hkept (hnot he)).trans (hends he)⟩

/-- The record of the last leaf is removed, and the root with it. -/
theorem remove_keeps_collapse : RemoveKeeps False 2 (indexOf 2 3 twoLeavesNodes) (byteKey 68) twoLeaves :=
  (remove_keeps_iff twoLeaves_shows twoLeaves_held twoLeaves_wellFormed twoLeaves_fits (.inr (by decide)) False
    False.elim).mpr
    ⟨fun hlost => absurd ((losesLast_iff twoLeaves_wellFormed (.inr (by decide))).mp hlost).2.2 (by decide),
      fun _ => fitsPage_absorb.mp (by decide), False.elim⟩

/-- The record of the first leaf is removed: the root is left with one key and one child. -/
theorem remove_keeps_fails :
    Shows (indexOf 2 3 twoLeavesNodes) (viewOf 2 3 twoLeavesNodes) ∧
      Held (h := 1) (viewOf 2 3 twoLeavesNodes) twoLeaves ∧ WellFormed 2 (h := 1) twoLeaves ∧
      Fits (h := 1) twoLeaves ∧ byteKey 65 ∈ (oneRecord 1 2 65).node.keys ∧
      ¬ RemoveKeeps False 2 (indexOf 2 3 twoLeavesNodes) (byteKey 65) twoLeaves :=
  ⟨twoLeaves_shows, twoLeaves_held, twoLeaves_wellFormed, twoLeaves_fits, by decide,
    fun hkeeps => twoLeaves_notRemoved hkeeps.removesExactly⟩

end SomeDB
