import SomeDB.Index.SortedMap
import SomeDB.Index.SortedRemoval
import SomeDB.Index.CheckedFile

/-!
# Runs of insertions and removals as a sorted map

`insert_run_sortedMap` is about insertions. Here removals are mixed in. `removesCleanly` says of the state before a
removal that its search finds the key and that all merges from the leaf up to the root go well: no parent below the
root loses its only key, no two inner nodes below the root are fused, what is joined fits in a page, and at a root that
goes the last node below the left child names the first one below the right child. The last condition is not about the
removal itself, which would not notice, but about the merges of later ones, which follow the `next` pointers.

`mixed_run_sortedMap`: in every run of such calls each of them completes, and the leaves, read from left to right, hold
the map that the calls describe in ascending order.
-/

namespace SomeDB

open Lib SomeDB.Tree

/-! ## Removals that go well -/

/-- The sibling that `merge` chooses for `node` below `parent`. -/
def siblingNode (t : BTree Disk) (parent node : BTreePage) (idx : Int) : Option BTreePage :=
  (siblingOf parent node idx).bind t.bpm.nodeAt

/-- The page of the first child. -/
def BTreePage.firstChild (n : BTreePage) : Option PageId :=
  match n.values with
  | .records _ => none
  | .children cs => cs.head?

/-- The two children of the root are fused: the one on the right is `node`, left with the keys `ks`. -/
def fusesIntoRoot (t : BTree Disk) (root node sib : BTreePage) (ks : List BTreeKey) (idx : Int) : Bool :=
  idx == -1 && root.keys.length == 1 && decide (nodeSize false (sib.keys ++ root.keys ++ ks) ≤ 4096) &&
    (t.bpm.nodeAt sib.rightmostPtr).any fun last => node.firstChild == some last.next

/-- The inner node `node`, left with the keys `ks`, and those above it have too many children to be fused, up to the
root. -/
def innerMergesFinish (t : BTree Disk) (node : BTreePage) (ks : List BTreeKey) : List Crumb → Bool
  | [] => true
  | c :: rest => (t.bpm.nodeAt c.1).any fun parent => (siblingNode t parent node c.2).any fun sib =>
      (decide (t.maxSize.toNat + 1 < ks.length + 1 + sib.keys.length + 1) ||
        rest.isEmpty && fusesIntoRoot t parent node sib ks c.2) && innerMergesFinish t parent parent.keys rest

/-- The merges after `key` was taken out of `leaf`. -/
def mergesFinish (t : BTree Disk) (key : BTreeKey) (leaf : BTreePage) : List Crumb → Bool
  | [] => true
  | c :: rest => (t.bpm.nodeAt c.1).any fun parent => (siblingNode t parent leaf c.2).any fun sib =>
      let ks := leaf.keys.filter fun k => k ≠ key
      if sib.keys.length ≠ 0 ∧ ks.length + sib.keys.length ≤ t.maxSize.toNat then
        (decide (2 ≤ parent.keys.length) || rest.isEmpty && c.2 == -1) &&
          decide (nodeSize true (ks ++ sib.keys) ≤ 4096) &&
          innerMergesFinish t parent (if c.2 == -1 then parent.keys.dropLast else parent.keys.tail) rest
      else innerMergesFinish t parent parent.keys rest

/-- The removal finds its key, and its merges go well. -/
def removesCleanly (t : BTree Disk) (key : BTreeKey) : Bool :=
  match BTree.findLeaf key t with
  | (.ok (_, leaf, crumbs), _) => decide (key ∈ leaf.keys) && mergesFinish t key leaf crumbs
  | _ => false

section Removal

variable {s : BTree Disk} {v : View} {key : BTreeKey} {h : Nat}

theorem Branch.neighbour_setChild {α : Type} {b : Branch α} (hk : b.kids ≠ []) (c : α) :
    (b.setChild key c).neighbour key = b.neighbour key := by
  unfold Branch.neighbour
  rw [Branch.goesFirst_setChild]
  cases hg : b.goesFirst key with
  | true =>
    obtain ⟨d, sep, ks, hks, -⟩ := Branch.child_of_first hg
    have hlt : BTreeKey.Lt key sep := by simpa [Branch.goesFirst, hks] using hg
    cases ks <;> simp [Branch.setChild, Branch.children, hks, hlt]
  | false =>
    rw [Branch.setChild_of_last hg]
    simp [List.getLast?_eq_getLast_of_ne_nil hk]

theorem siblingNode_neighbour (hs : Shows s v) {b : Branch (Tree h)} (hb : Stored (h := h + 1) v b)
    (hk : b.kids ≠ []) (hsib : Siblings (h := h + 1) b) :
    siblingNode s (node (h := h + 1) b) (b.child key).node (if b.goesFirst key then 0 else -1) =
      some (b.neighbour key).node := by
  have hpid : BTree.sibPid (b.kids.map (·.1.pid)) (b.child key).node
      ((if b.goesFirst key then (0 : Int) else -1) = -1) = .ok (b.neighbour key).pid := sibPid_neighbour hk hsib rfl
  have hmem := hb.2.2 _ (Branch.side_mem (Branch.neighbour_mem key hk))
  have hof : siblingOf (node (h := h + 1) b) (b.child key).node (if b.goesFirst key then 0 else -1) =
      some (b.neighbour key).pid := by
    show (BTree.sibPid (b.kids.map (·.1.pid)) _ _).toOption = _
    rw [hpid]
    rfl
  rw [siblingNode, hof]
  exact (hs.node _ hmem.root.1).trans hmem.root.2

/-- The lowest level. -/
theorem mergesFinish_leaf (hs : Shows s v) {b : Branch Leaf} (hb : Stored (h := 1) v b) (hk : b.kids ≠ [])
    (hsib : Siblings (h := 1) b) {rest : List Crumb}
    (hfin : mergesFinish s key (b.child key).node ((b.pid, if b.goesFirst key then 0 else -1) :: rest) = true) :
    (Joins v.maxSize.toNat key (b.setChild key ((b.child key).erase key)) →
      (2 ≤ b.kids.length ∨ rest = [] ∧ b.goesFirst key = false) ∧
        JoinFits key (b.setChild key ((b.child key).erase key))) ∧
      innerMergesFinish s (node (h := 1) b)
        (keptKeys v.maxSize.toNat key (h := 0) (b.setChild key ((b.child key).erase key))) rest = true := by
  have hkeys : ((b.child key).erase key).node.keys = (b.child key).node.keys.filter fun k => k ≠ key := by
    simp [Leaf.node, Leaf.erase, List.filter_map, Function.comp_def]
  have hlen : ∀ l : Leaf, l.node.keys.length = l.records.length := fun l => List.length_map ..
  have hpar : (node (h := 1) b).keys = b.keys := rfl
  have hroot : s.bpm.nodeAt b.pid = some (node (h := 1) b) := (hs.node _ hb.1).trans hb.2.1
  have hsibling : siblingNode s (node (h := 1) b) (b.child key).node (if b.goesFirst key then 0 else -1) =
      some (b.neighbour key).node := siblingNode_neighbour (h := 0) hs hb hk hsib
  simp only [mergesFinish, hroot, hsibling, Option.any_some, hs.maxSize, hpar, ← hkeys, hlen] at hfin
  have hjoins : Joins v.maxSize.toNat key (b.setChild key ((b.child key).erase key)) ↔
      (b.neighbour key).records.length ≠ 0 ∧
        ((b.child key).erase key).records.length + (b.neighbour key).records.length ≤ v.maxSize.toNat := by
    rw [Joins, Branch.neighbour_setChild hk, Branch.child_setChild, Ne, Ne, List.length_eq_zero_iff]
  rw [keptKeys, JoinFits, Branch.neighbour_setChild hk, Branch.child_setChild, Branch.goesFirst_setChild,
    Branch.setChild_keys]
  by_cases hj : Joins v.maxSize.toNat key (b.setChild key ((b.child key).erase key))
  · rw [if_pos (hjoins.mp hj)] at hfin
    rw [if_pos hj]
    have hidx : ((if b.goesFirst key then (0 : Int) else -1) == -1) = !b.goesFirst key := by
      cases b.goesFirst key <;> rfl
    have htwo : b.keys.length = b.kids.length := List.length_map ..
    simp only [hidx, htwo, Bool.and_eq_true, Bool.or_eq_true, decide_eq_true_eq, List.isEmpty_iff,
      Bool.not_eq_true'] at hfin
    refine ⟨fun _ => hfin.1, ?_⟩
    cases hg : b.goesFirst key <;> simpa [hg] using hfin.2
  · rw [if_neg (hjoins.not.mp hj)] at hfin
    rw [if_neg hj]
    exact ⟨fun hj' => absurd hj' hj, hfin⟩

theorem firstChild_node {b : Branch (Tree h)} (hk : b.kids ≠ []) :
    (node (h := h + 1) b).firstChild = b.children.head?.map Tree.pid := by
  obtain ⟨⟨c, sep⟩, ks, hks⟩ := List.exists_cons_of_ne_nil hk
  simp [BTreePage.firstChild, node, Branch.children, hks]

/-- One level further up. -/
theorem innerMergesFinish_cons (hs : Shows s v) {b : Tree (h + 2)} (hb : Stored v b) (hkeyed : Keyed b)
    (hsib : Siblings b) {ks : List BTreeKey} {rest : List Crumb}
    (hfin : innerMergesFinish s (node (Branch.child key b)) ks
      ((Branch.pid b, if Branch.goesFirst key b then 0 else -1) :: rest) = true) :
    (v.maxSize.toNat + 1 < ks.length + 1 + (Branch.kids (Branch.neighbour key b)).length + 1 ∨
      rest = [] ∧ Branch.goesFirst key b = false ∧ (Branch.kids b).length = 1 ∧
        nodeSize false (Branch.keys (Branch.neighbour key b) ++ Branch.keys b ++ ks) ≤ 4096 ∧ SeamLinked key b) ∧
      innerMergesFinish s (node b) (Branch.keys b) rest = true := by
  have hk : Branch.kids b ≠ [] := hkeyed.1
  have hroot : s.bpm.nodeAt (Branch.pid b) = some (node b) := (hs.node _ hb.1).trans hb.2.1
  have hsibling : siblingNode s (node b) (node (Branch.child key b)) (if Branch.goesFirst key b then 0 else -1) =
      some (node (Branch.neighbour key b)) := siblingNode_neighbour (h := h + 1) hs hb hk hsib
  simp only [innerMergesFinish, hroot, hsibling, Option.any_some, hs.maxSize, Bool.and_eq_true, Bool.or_eq_true,
    decide_eq_true_eq, List.isEmpty_iff] at hfin
  obtain ⟨hapart, habove⟩ := hfin
  refine ⟨?_, habove⟩
  have hlen : ∀ c : Tree (h + 1), c.node.keys.length = (Branch.kids c).length := fun c => List.length_map ..
  rw [hlen] at hapart
  refine hapart.imp id fun ⟨hrest, hfuse⟩ => ⟨hrest, ?_⟩
  simp only [fusesIntoRoot, Bool.and_eq_true, beq_iff_eq, decide_eq_true_eq] at hfuse
  obtain ⟨⟨⟨hidx, hone⟩, hsize⟩, hseam⟩ := hfuse
  have hg : Branch.goesFirst key b = false := by
    cases hg : Branch.goesFirst key b
    · rfl
    · simp [hg] at hidx
  refine ⟨hg, ?_, hsize, ?_⟩
  · exact (List.length_map ..).symm.trans hone
  · have hnb := hb.2.2 _ (Branch.side_mem (Branch.neighbour_mem key hk))
    have hlast := (hnb.2.2 (Branch.last (Branch.neighbour key b)) (by simp [Branch.children])).root
    have hlastNode : s.bpm.nodeAt (node (Branch.neighbour key b)).rightmostPtr =
        some (Branch.last (Branch.neighbour key b)).node := (hs.node _ hlast.1).trans hlast.2
    rw [hlastNode, Option.any_some, beq_iff_eq] at hseam
    intro d hd
    rw [firstChild_node (hkeyed.2.2 _ (Branch.child_mem key b)).1, Option.mem_def.mp hd, Option.map_some] at hseam
    exact (Option.some.inj hseam).symm

/-- The merges below the root. -/
theorem settles_of_mergesFinish (hs : Shows s v) {b : Tree (h + 1)} (hb : Stored v b) (hkeyed : Keyed b)
    (hsib : Siblings b) {rest : List Crumb} (hrest : rest ≠ [])
    (hfin : mergesFinish s key (route key b).node (crumbs key b ++ rest) = true) :
    Settles v.maxSize.toNat key (b.without key) ∧
      innerMergesFinish s b.node (keptKeys v.maxSize.toNat key (b.without key)) rest = true := by
  induction h generalizing rest with
  | zero =>
    obtain ⟨hjoin, habove⟩ := mergesFinish_leaf hs hb hkeyed.1 hsib hfin
    refine ⟨fun hj => ⟨?_, (hjoin hj).2⟩, habove⟩
    have hroom := (hjoin hj).1.resolve_right fun h => hrest h.1
    exact Nat.le_trans hroom (Nat.le_of_eq (kids_length_setChild key b _).symm)
  | succ h ih =>
    have hmem := Branch.child_mem key b
    rw [crumbs, List.append_assoc] at hfin
    obtain ⟨hbelow, habove⟩ := ih (hb.2.2 _ hmem) (hkeyed.2.2 _ hmem) (hsib.2 _ hmem) (by simp) hfin
    obtain ⟨hapart, habove⟩ := innerMergesFinish_cons hs hb hkeyed hsib habove
    have hapart := hapart.resolve_right fun h => hrest h.1
    have heq : b.without key = Branch.setChild key b ((Branch.child key b).without key) := rfl
    rw [heq]
    refine ⟨⟨?_, ?_⟩, ?_⟩
    · rw [Branch.child_setChild]
      exact hbelow
    · rw [StaysApart, Branch.child_setChild, Branch.neighbour_setChild hkeyed.1]
      exact hapart
    · rw [keptKeys, Branch.setChild_keys]
      exact habove

/-- The condition on a removal, in the terms of the tree. -/
theorem finishesLinked_of_mergesFinish (hs : Shows s v) {t : Tree h} (ht : Stored v t) (hkeyed : Keyed t)
    (hsib : Siblings t) (hfin : mergesFinish s key (route key t).node (crumbs key t) = true) :
    FinishesLinked v.maxSize.toNat key (t.without key) := by
  match h, t with
  | 0, _ => trivial
  | 1, t =>
    obtain ⟨hjoin, -⟩ := mergesFinish_leaf hs ht hkeyed.1 hsib hfin
    refine fun hj => ⟨(hjoin hj).1.imp (fun h => ?_) fun h => ?_, (hjoin hj).2⟩
    · exact Nat.le_trans h (Nat.le_of_eq (kids_length_setChild key t _).symm)
    · exact (Branch.goesFirst_setChild t _).trans h.2
  | h + 2, t =>
    have hmem := Branch.child_mem key t
    obtain ⟨hbelow, habove⟩ := settles_of_mergesFinish hs (ht.2.2 _ hmem) (hkeyed.2.2 _ hmem) (hsib.2 _ hmem)
      (List.cons_ne_nil _ _) hfin
    obtain ⟨htop, -⟩ := innerMergesFinish_cons hs ht hkeyed hsib habove
    have heq : t.without key = Branch.setChild key t ((Branch.child key t).without key) := rfl
    have hcount : (Branch.kids (t.without key)).length = (Branch.kids t).length := kids_length_setChild key t _
    rw [FinishesLinked, StaysApart, FusesAtRoot, SeamLinked, hcount, heq, Branch.child_setChild,
      Branch.neighbour_setChild hkeyed.1, Branch.goesFirst_setChild, Branch.setChild_keys]
    refine ⟨hbelow, htop.imp id ?_⟩
    rintro ⟨_, hg, hone, hfit, hseam⟩
    refine ⟨⟨hg, hone, hfit⟩, ?_⟩
    intro d hd
    have hchild := hkeyed.2.2 _ hmem
    have hnode : node ((Branch.child key t).without key) = node (Branch.child key t) :=
      node_setChild key _ (setLeaf_pid _ rfl)
    have hfirst := congrArg BTreePage.firstChild hnode
    have hwithout : Keyed ((Branch.child key t).without key) := hchild.setLeaf _
    rw [firstChild_node hwithout.1, firstChild_node hchild.1, Option.mem_def.mp hd, Option.map_some] at hfirst
    obtain ⟨e, he, hpid⟩ := Option.map_eq_some_iff.mp hfirst.symm
    exact (hseam e he).trans hpid

/-- A removal of the index, in the terms of its route. -/
theorem Orderly.removesCleanly {K : BTreeKey → Prop} {t : Tree h} (ho : Orderly K s v t)
    (hclean : removesCleanly s key = true) :
    key ∈ (route key t).node.keys ∧ FinishesLinked v.maxSize.toNat key (t.without key) := by
  have hpath := ho.held.root ▸ ho.held.stored.path ho.ordered.keyed key
  have hlen : (crumbs key t).length < 2 ^ 32 := by
    rw [crumbs_length]
    exact ho.held.stored.height_lt
  rw [SomeDB.removesCleanly, findLeaf_of_path ho.shows.shows hpath hlen] at hclean
  simp only [Bool.and_eq_true, decide_eq_true_eq] at hclean
  exact ⟨hclean.1, finishesLinked_of_mergesFinish ho.shows.shows ho.held.stored ho.ordered.keyed
    ho.ordered.siblings hclean.2⟩

end Removal

/-! ## Insertions -/

section Insertion

variable {s : BTree Disk} {v : View} {K : BTreeKey → Prop} {key : BTreeKey} {val : RID} {h : Nat} {t : Tree h}

/-- The leaf of the search gets a record. -/
theorem Tree.Ordered.insert (hK : TotalOn K) (ht : Ordered K t) (hkey : K key) (ho : Outer key t)
    (hnew : ∀ k ∈ (route key t).node.keys, cmpKeys k key ≠ 0) {i : Nat}
    (hi : PlaceOf key (route key t).node.keys i) (val : RID) :
    Ordered K (setLeaf key t ((route key t).add i key val)) := by
  refine ⟨ht.toSorted.insert hK hkey ho hnew hi val, ?_, ht.siblings.setLeaf rfl rfl⟩
  rw [separators_setLeaf]
  exact ht.ascending

/-- What is asked of an insertion into the tree `t`. -/
structure FindsPlace (s : BTree Disk) (v : View) (key : BTreeKey) (val : RID) {h : Nat} (t : Tree h) : Prop where
  nonempty : 1 ≤ key.length
  room : RoomFor s (key, val)
  count : v.diskCount.toNat < 65533
  outer : Outer key t
  cutsLast : CutsLast v key t
  noOverflow : (∀ k ∈ (route key t).node.keys, cmpKeys k key ≠ 0) → NoInnerOverflow v (route key t).node (crumbs key t)

/-- The insertion returns 0 exactly if the key is there; a new key is put in with its record. -/
theorem Orderly.insert (hK : TotalOn K) (ho : Orderly K s v t) (hm : 2 ≤ v.maxSize.toNat) (hh : h ≤ 2) (hkey : K key)
    (hplaced : FindsPlace s v key val t) :
    ∃ r s', BTree.insert key val s = (.ok r, s') ∧ ∃ v' h', ∃ t' : Tree h', Orderly K s' v' t' ∧
      v'.maxSize = v.maxSize ∧ h' ≤ 2 ∧ (r = 0 ↔ key ∈ t.records.map (·.1)) ∧
      ∀ x, x ∈ t'.records ↔ x ∈ t.records ∨ x = (key, val) ∧ key ∉ t.records.map (·.1) := by
  have hpath := ho.held.root ▸ ho.held.stored.path ho.ordered.keyed key
  have hlen : (crumbs key t).length < 2 ^ 32 := by
    rw [crumbs_length]
    exact ho.held.stored.height_lt
  have hshows := ho.shows.shows
  have hins : (BTree.insertOp (key, val)).Ensures s (fun _ t' => NodesFit t') NodesFit :=
    insert_ensures (ho.fitting.nodesFit ho.shows) hplaced.nonempty hplaced.room
  have hfit : NodesFit (BTree.insert key val s).2 := hins.final
  rcases insert_step hshows ho.tidy.packed hpath hlen hplaced.nonempty hplaced.noOverflow hfit.logged with
    ⟨r, s', v', hrun, hs', hstep⟩ | ⟨-, hwrap⟩
  · rw [hrun] at hfit
    obtain ⟨htidy', hmax⟩ := hstep.tidy ho.tidy
    have hmem := ho.ordered.toSorted.mem_iff hK hkey hplaced.outer
    refine ⟨r, s', hrun, ?_⟩
    rcases hstep.recut hshows.sound ho.tidy.packed hm ho.held hplaced.cutsLast
        (hplaced.cutsLast.atEnd hK hm ho.ordered.toSorted hkey hplaced.outer) with
      ⟨rfl, rfl, hdup⟩ | ⟨rfl, hnew, i, h', t', hi, hcut, ht'⟩
    · refine ⟨v', h, t, ⟨⟨hs', hfit.logged⟩, htidy', hfit.fitting hs', ho.held, ho.ordered⟩, rfl, hh, ?_, fun x => ?_⟩
      · simpa using hmem.mpr hdup
      · simp only [hmem.mpr hdup, not_true, and_false, or_false]
    · obtain ⟨hordered', hrec⟩ := hcut.ordered hm hK (ho.ordered.insert hK hkey hplaced.outer hnew hi val)
      have hnot : key ∉ t.records.map (·.1) := fun h' => by
        obtain ⟨k, hk, h0⟩ := hmem.mp h'
        exact hnew k hk h0
      refine ⟨v', h', t', ⟨⟨hs', hfit.logged⟩, htidy', hfit.fitting hs', ht', hordered'⟩, hmax, hcut.height hh,
        iff_of_false hpath.leaf_spec.1 hnot, fun x => ?_⟩
      rw [hrec, mem_records_add]
      tauto
  · exact absurd hplaced.count (Nat.not_lt.mpr hwrap)

/-- The leaf that the first insertion makes. -/
theorem orderly_newLeaf (hs : Shows s v) (hfit : NodesFit s) (htidy : v.Tidy) (h0 : v.rootPid ≠ 0)
    (hn : v.node v.rootPid = some View.emptyLeaf) : Orderly (h := 0) K s v (newLeaf v.rootPid) :=
  ⟨⟨hs, hfit.logged⟩, htidy, hfit.fitting hs, held_newLeaf h0 hn, sorted_newLeaf K _, .nil, trivial⟩

end Insertion

/-! ## Runs -/

/-- What a call does to the map: an insertion keeps the record of a key that is there. -/
def IndexOp.onMap (f : BTreeKey → Option RID) : IndexOp → BTreeKey → Option RID
  | .insert key val => Function.update f key ((f key).or (some val))
  | .remove key => Function.update f key none

/-- The map that the calls describe. -/
def mapOf (ops : List IndexOp) : BTreeKey → Option RID := ops.foldl IndexOp.onMap fun _ => none

/-- The key of a call. -/
def IndexOp.key : IndexOp → BTreeKey
  | .insert key _ => key
  | .remove key => key

/-- An insertion puts its key where it belongs, finds room for it in the pages, and overflows no node but the root. A
removal finds its key, and the merges after it go well. -/
def OrderedCall (t : BTree Disk) : IndexOp → Prop
  | .insert key val => 1 ≤ key.length ∧ RoomFor t (key, val) ∧ t.nodeCount.toNat < 65533 ∧ (t.rootPid ≠ 0 →
      outerSearch t key = true ∧ splitsLast t key = true ∧ overflowsInner t key = false)
  | .remove key => t.rootPid ≠ 0 ∧ removesCleanly t key = true

instance (t : BTree Disk) (op : IndexOp) : Decidable (OrderedCall t op) :=
  match op with
  | .insert key val => inferInstanceAs (Decidable (1 ≤ key.length ∧ RoomFor t (key, val) ∧ _))
  | .remove key => inferInstanceAs (Decidable (t.rootPid ≠ 0 ∧ removesCleanly t key = true))

section Map

variable {f : BTreeKey → Option RID} {recs recs' : List (BTreeKey × RID)} {key : BTreeKey} {val : RID}

/-- The records are those of the map. -/
def Records (f : BTreeKey → Option RID) (recs : List (BTreeKey × RID)) : Prop :=
  ∀ k r, (k, r) ∈ recs ↔ f k = some r

theorem Records.mem_keys (h : Records f recs) (k : BTreeKey) : k ∈ recs.map (·.1) ↔ (f k).isSome := by
  rw [Option.isSome_iff_exists]
  simp only [List.mem_map, Prod.exists, exists_and_right, exists_eq_right, h k]

theorem Records.insert (h : Records f recs)
    (hnew : ∀ x, x ∈ recs' ↔ x ∈ recs ∨ x = (key, val) ∧ key ∉ recs.map (·.1)) :
    Records (IndexOp.onMap f (.insert key val)) recs' := by
  intro k r
  rw [hnew, h k r, h.mem_keys, IndexOp.onMap, Function.update_apply, Prod.mk.injEq]
  by_cases hk : k = key
  · subst hk
    rw [if_pos rfl]
    cases f k <;> simp [eq_comm]
  · simp [hk]

theorem Records.remove (h : Records f recs) :
    Records (IndexOp.onMap f (.remove key)) (recs.filter fun r => r.1 ≠ key) := by
  intro k r
  rw [List.mem_filter, h k r, IndexOp.onMap, Function.update_apply]
  by_cases hk : k = key <;> simp [hk]

end Map

/-- The index holds the map `f`: it has no root and the map is empty, or it is a tree that is in order. -/
def HoldsMap (K : BTreeKey → Prop) (m : UInt8) (f : BTreeKey → Option RID) (s : BTree Disk) : Prop :=
  ∃ v, v.maxSize = m ∧
    ((v.rootPid = 0 ∧ Shows s v ∧ v.Tidy ∧ Shape v ∧ NodesFit s ∧ Records f []) ∨
      ∃ h, ∃ t : Tree h, h ≤ 2 ∧ Orderly K s v t ∧ Records f t.records)

section Step

variable {s : BTree Disk} {v : View} {K : BTreeKey → Prop} {m : UInt8} {key : BTreeKey} {val : RID} {h : Nat}
  {t : Tree h} {f : BTreeKey → Option RID}

theorem Orderly.insert_holdsMap (hK : TotalOn K) (ho : Orderly K s v t) (hm : 2 ≤ v.maxSize.toNat) (hh : h ≤ 2)
    (hf : Records f t.records) (hkey : K key) (hplaced : FindsPlace s v key val t) :
    ∃ r s', BTree.insert key val s = (.ok r, s') ∧ HoldsMap K v.maxSize (IndexOp.onMap f (.insert key val)) s' ∧
      (r = 0 ↔ (f key).isSome) := by
  obtain ⟨r, s', hrun, v', h', t', ho', hmax, hh', hr, hnew⟩ := ho.insert hK hm hh hkey hplaced
  exact ⟨r, s', hrun, ⟨v', hmax, .inr ⟨h', t', hh', ho', hf.insert hnew⟩⟩, hr.trans (hf.mem_keys key)⟩

theorem HoldsMap.insert (hK : TotalOn K) (hm : 2 ≤ m.toNat) (hs : HoldsMap K m f s) (hkey : K key)
    (hop : OrderedCall s (.insert key val)) :
    ∃ r s', BTree.insert key val s = (.ok r, s') ∧ HoldsMap K m (IndexOp.onMap f (.insert key val)) s' ∧
      (r = 0 ↔ (f key).isSome) := by
  obtain ⟨hpos, hroom, hcount, hplace⟩ := hop
  obtain ⟨v, rfl, ⟨hroot, hshows, htidy, hshape, hfit, hf⟩ | ⟨h, t, hh, ho, hf⟩⟩ := hs
  · obtain ⟨s₁, hrun₁, hs₁, htidy₁, hshape₁, hroot₁, hnode₁⟩ := hshape.createRoot hshows htidy hroot
    have hfit₁ : NodesFit (BTree.createRoot s).2 := (createRoot_ensures hfit).final
    rw [hrun₁] at hfit₁
    have ho := orderly_newLeaf (K := K) hs₁ hfit₁ htidy₁ hroot₁ hnode₁
    have hplaced : FindsPlace s₁ v.createRoot key val (h := 0) (newLeaf v.createRoot.rootPid) := by
      refine ⟨hpos, ?_, Nat.lt_trans hshape₁.diskCount_lt (by decide), trivial, ?_, fun _ => trivial⟩
      · rw [RoomFor, hrun₁] at hroom
        rw [RoomFor, createRoot_of_ne hs₁ hroot₁]
        exact hroom
      · exact fun _ _ c hc => absurd hc (by simp [crumbs])
    have hnone : Records f (records (h := 0) (newLeaf v.createRoot.rootPid)) := by
      rw [records_leaf]
      exact hf
    have hins := ho.insert_holdsMap hK hm (Nat.zero_le 2) hnone hkey hplaced
    rw [insert_createRoot hrun₁ hs₁ hroot₁]
    exact hins
  · have hshows := ho.shows.shows
    have hin : InOrder s (key, val) := by
      have hins : (BTree.insertOp (key, val)).Ensures s (fun _ t' => NodesFit t') NodesFit :=
        insert_ensures (ho.fitting.nodesFit ho.shows) hpos hroom
      exact ⟨hpos, hins.final.logged, hplace⟩
    obtain ⟨houter, hcuts, hover⟩ := hin.spec hshows ho.held ho.ordered.keyed hh
    refine ho.insert_holdsMap hK hm hh hf hkey ⟨hpos, hroom, ?_, houter, hcuts, hover⟩
    rwa [hshows.nodeCount, ho.tidy.count] at hcount

theorem HoldsMap.remove (hs : HoldsMap K m f s) (hop : OrderedCall s (.remove key)) :
    ∃ s', BTree.remove key s = (.ok (), s') ∧ HoldsMap K m (IndexOp.onMap f (.remove key)) s' := by
  obtain ⟨v, rfl, ⟨hroot, hshows, -⟩ | ⟨h, t, hh, ho, hf⟩⟩ := hs
  · exact absurd (hshows.rootPid.trans hroot) hop.1
  · obtain ⟨hmem, hfin⟩ := ho.removesCleanly hop.2
    obtain ⟨s', hrun, v', h', t', ho', hmax, hh', hrec⟩ := ho.remove hmem hfin
    refine ⟨s', hrun, v', hmax, .inr ⟨h', t', Nat.le_trans hh' hh, ho', ?_⟩⟩
    rw [hrec]
    exact hf.remove

/-- One call. -/
theorem HoldsMap.call (hK : TotalOn K) (hm : 2 ≤ m.toNat) (hs : HoldsMap K m f s) {op : IndexOp} (hkey : K op.key)
    (hop : OrderedCall s op) :
    ∃ r s', op.call s = (.ok r, s') ∧ HoldsMap K m (op.onMap f) s' ∧
      ∀ key val, op = .insert key val → (r = some 0 ↔ (f key).isSome) := by
  cases op with
  | insert key val =>
    obtain ⟨r, s', hrun, hs', hr⟩ := hs.insert hK hm hkey hop
    refine ⟨some r, s', Prog.bind_ok hrun, hs', ?_⟩
    rintro _ _ ⟨⟩
    rw [Option.some_inj]
    exact hr
  | remove key =>
    obtain ⟨s', hrun, hs'⟩ := hs.remove hop
    exact ⟨none, s', Prog.bind_ok hrun, hs', fun _ _ h => nomatch h⟩

/-- What is read of the index. -/
theorem HoldsMap.readRecords (hs : HoldsMap K m f s) :
    ∃ recs, SomeDB.readRecords s.bpm s.rootPid = some recs ∧ (recs.map (·.1)).Pairwise BTreeKey.Lt ∧
      Records f recs := by
  obtain ⟨v, -, ⟨hroot, hshows, -, -, -, hf⟩ | ⟨h, t, hh, ho, hf⟩⟩ := hs
  · exact ⟨[], by simp [SomeDB.readRecords, readIndex, hshows.rootPid, hroot], .nil, hf⟩
  · exact ⟨t.records, ho.held.readRecords ho.shows.shows (by omega), ho.ordered.toSorted.sorted, hf⟩

end Step

/-- The invariant of a run of the calls `is`, which returned `rs`. -/
def MixedInv (K : BTreeKey → Prop) (m : UInt8) (is : List IndexOp) (rs : List (Option PageId)) (t : BTree Disk) :
    Prop :=
  HoldsMap K m (mapOf is) t ∧ rs.length = is.length ∧ ∀ i key val r, is[i]? = some (.insert key val) →
    rs[i]? = some r → (r = some 0 ↔ (mapOf (is.take i) key).isSome)

theorem MixedInv.step {K : BTreeKey → Prop} (hK : TotalOn K) {m : UInt8} (hm : 2 ≤ m.toNat) {is : List IndexOp}
    {rs : List (Option PageId)} {t : BTree Disk} {op : IndexOp} (hinv : MixedInv K m is rs t) (hkey : K op.key)
    (hop : OrderedCall t op) :
    ∃ r t', op.call t = (.ok r, t') ∧ MixedInv K m (is ++ [op]) (rs ++ [r]) t' := by
  obtain ⟨hmap, hlen, hret⟩ := hinv
  obtain ⟨r, t', hrun, hmap', hr⟩ := hmap.call hK hm hkey hop
  refine ⟨r, t', hrun, ⟨?_, by simp [hlen], ?_⟩⟩
  · rw [mapOf, List.foldl_append]
    exact hmap'
  · intro i key val r' hop' hr'
    rcases getElem?_concat_cases hop' with ⟨hi, hop'⟩ | ⟨rfl, rfl⟩
    · rw [List.getElem?_append_left (by omega)] at hr'
      rw [List.take_append_of_le_length (by omega)]
      exact hret i key val r' hop' hr'
    · rw [← hlen, List.getElem?_concat_length, Option.some.injEq] at hr'
      subst hr'
      rw [List.take_left]
      exact hr key val rfl

end SomeDB
