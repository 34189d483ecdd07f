import SomeDB.Index.Ascending
import SomeDB.Index.Merge
import SomeDB.Index.Route
import Mathlib.Data.List.Chain

/-!
# Removal from a tree of two levels

`Tree.WellFormed m t`: the keys and records of a tree are in order, no node has more than `m` keys, and each leaf
names the leaf to its right. Taking a record out of the leaf of its search keeps a tree well-formed
(`WellFormed.erase`). Behind that `merge` joins the leaf with a neighbour if the two fit into one node:

* the first leaf with one that is not the last (`merge_joinFirst`),
* the last leaf with the one before it (`merge_joinLast`, and `merge_joinOnly`, where the root goes).

`remove_first` and `remove_last` put them together. If it joins the first leaf with the last one (`LosesLast`), the
root keeps its key and has no last child afterwards.
-/

namespace SomeDB

open Lib

/-- The leaf without the record of `key`. -/
def Leaf.erase (l : Leaf) (key : BTreeKey) : Leaf := { l with records := l.records.filter fun r => r.1 ≠ key }

/-- Each leaf names the one to its right. -/
def Linked (ls : List Leaf) : Prop := ls.IsChain fun a b => a.next = b.pid

namespace Tree

/-- No node has more than `m` keys. -/
def AtMost (m : Nat) : {h : Nat} → Tree h → Prop
  | 0, l => (Leaf.records l).length ≤ m
  | _ + 1, b => (Branch.kids b).length ≤ m ∧ ∀ c ∈ Branch.children b, AtMost m c

structure WellFormed (m : Nat) {h : Nat} (t : Tree h) : Prop where
  keyed : Keyed t
  separated : Separated t
  sorted : (t.records.map (·.1)).Pairwise BTreeKey.Lt
  atMost : AtMost m t
  linked : Linked t.leaves

variable {v : View} {key : BTreeKey} {m : Nat}

/-- A page holds the root of one tree only. -/
theorem Stored.unique {h : Nat} {t u : Tree h} (ht : Stored v t) (hu : Stored v u) (hpid : t.pid = u.pid) :
    t = u := by
  induction h with
  | zero =>
    have hnode := Option.some.inj ((hpid ▸ ht.root.2).symm.trans hu.root.2)
    obtain ⟨pid, flags, rm, next, recs⟩ := t
    obtain ⟨pid', flags', rm', next', recs'⟩ := u
    simp only [node, Leaf.node, BTreePage.mk.injEq, NodeValues.records.injEq] at hnode
    obtain ⟨hkeys, rfl, rfl, rfl, hrids⟩ := hnode
    obtain rfl : pid = pid' := hpid
    have hrecs : recs = recs' := (List.zip_of_prod hkeys hrids).trans (List.zip_of_prod rfl rfl).symm
    rw [hrecs]
  | succ h ih =>
    have hnode := Option.some.inj ((hpid ▸ ht.root.2).symm.trans hu.root.2)
    obtain ⟨pid, flags, next, kids, last⟩ := t
    obtain ⟨pid', flags', next', kids', last'⟩ := u
    simp only [node, Branch.keys, BTreePage.mk.injEq, NodeValues.children.injEq] at hnode
    obtain ⟨hkeys, rfl, hlast, rfl, hkids⟩ := hnode
    obtain rfl : pid = pid' := hpid
    have hl : last = last' := ih (ht.2.2 _ (by simp [Branch.children])) (hu.2.2 _ (by simp [Branch.children])) hlast
    have hk : kids = kids' := by
      have htc : ∀ c ∈ kids, Stored v c.1 := fun c hc => ht.2.2 _ (by simpa [Branch.children] using .inl ⟨c.2, hc⟩)
      have huc : ∀ c ∈ kids', Stored v c.1 := fun c hc => hu.2.2 _ (by simpa [Branch.children] using .inl ⟨c.2, hc⟩)
      clear ht hu hlast
      induction kids generalizing kids' with
      | nil => exact (List.map_eq_nil_iff.mp hkeys.symm).symm
      | cons c ks ihk =>
        obtain ⟨c', ks', rfl⟩ : ∃ c' ks', kids' = c' :: ks' := by
          cases kids' with
          | nil => cases hkeys
          | cons c' ks' => exact ⟨c', ks', rfl⟩
        simp only [List.map_cons, List.cons.injEq] at hkeys hkids
        have hc : c = c' := Prod.ext (ih (htc c (by simp)) (huc c' (by simp)) hkids.1) hkeys.1
        rw [hc, ihk ks' hkeys.2 hkids.2 (fun c hc => htc c (List.mem_cons_of_mem _ hc))
          (fun c hc => huc c (List.mem_cons_of_mem _ hc))]
    rw [hl, hk]

/-! ## A record less -/

/-- The record of the key is the only one that goes. -/
theorem eraseIdx_keyIndex {rs : List (BTreeKey × RID)} (hs : (rs.map (·.1)).Pairwise BTreeKey.Lt) :
    rs.eraseIdx (BTree.keyIndex (rs.map (·.1)) key) = rs.filter fun r => r.1 ≠ key := by
  induction rs with
  | nil => rfl
  | cons r rs ih =>
    rw [List.map_cons, List.pairwise_cons] at hs
    by_cases hr : r.1 = key
    · have hrest : ∀ a ∈ rs, a.1 ≠ key := fun a ha heq => (hs.1 a.1 (List.mem_map_of_mem ha)).ne (hr.trans heq.symm)
      have hidx : BTree.keyIndex ((r :: rs).map (·.1)) key = 0 := by simp [BTree.keyIndex, List.findIdx_cons, hr]
      rw [hidx, List.eraseIdx_cons_zero, List.filter_cons_of_neg (by simpa using hr),
        List.filter_eq_self.mpr fun a ha => by simpa using hrest a ha]
    · have hidx : BTree.keyIndex ((r :: rs).map (·.1)) key = BTree.keyIndex (rs.map (·.1)) key + 1 := by
        simp [BTree.keyIndex, List.findIdx_cons, hr]
      rw [hidx, List.eraseIdx_cons_succ, ih hs.2, List.filter_cons_of_pos (by simpa using hr)]

theorem node_erase {l : Leaf} (hs : (l.records.map (·.1)).Pairwise BTreeKey.Lt) :
    (l.erase key).node = l.node.dropRecord (BTree.keyIndex l.node.keys key) := by
  rw [BTreePage.dropRecord_eq rfl]
  simp only [Leaf.node, Leaf.erase, ← eraseIdx_keyIndex hs, List.eraseIdx_map]

theorem length_erase {l : Leaf} (hs : (l.records.map (·.1)).Pairwise BTreeKey.Lt) (hkey : key ∈ l.node.keys) :
    (l.erase key).records.length = l.records.length - 1 := by
  have hlt : BTree.keyIndex (l.records.map (·.1)) key < l.records.length := by
    have hidx := keyIndex_lt.mpr hkey
    rwa [Leaf.node, List.length_map] at hidx
  rw [Leaf.erase, ← eraseIdx_keyIndex hs, List.length_eraseIdx, if_pos hlt]

theorem AtMost.setLeaf {h : Nat} {t : Tree h} (ht : AtMost m t) {l : Leaf} (hl : l.records.length ≤ m) :
    AtMost m (setLeaf key t l) := by
  induction h with
  | zero => exact hl
  | succ h ih =>
    refine ⟨?_, Branch.forall_setChild ht.2 (ih (ht.2 _ (Branch.child_mem key t)))⟩
    have hlen := congrArg List.length
      (Branch.setChild_keys key t (Tree.setLeaf key (Branch.child key t) l))
    rw [Branch.keys, Branch.keys, List.length_map, List.length_map] at hlen
    exact Nat.le_trans (Nat.le_of_eq hlen) ht.1

theorem AtMost.route {h : Nat} {t : Tree h} (ht : AtMost m t) : (route key t).records.length ≤ m := by
  induction h with
  | zero => exact ht
  | succ h ih => exact ih (ht.2 _ (Branch.child_mem key t))

/-- The leaf of the search among the others. -/
theorem leaves_setLeaf (key : BTreeKey) {h : Nat} (t : Tree h) :
    ∃ A B, ∀ l, (setLeaf key t l).leaves = A ++ l :: B := by
  induction h with
  | zero => exact ⟨[], [], fun _ => rfl⟩
  | succ h ih =>
    obtain ⟨A, B, hAB⟩ := ih (Branch.child key t)
    refine ⟨(Branch.left key t).flatMap leaves ++ A, B ++ (Branch.right key t).flatMap leaves, fun l => ?_⟩
    show (Branch.setChild key t _).children.flatMap leaves = _
    rw [Branch.children_setChild, List.flatMap_append, List.flatMap_cons, hAB]
    simp

theorem linked_setLeaf {h : Nat} {t : Tree h} (ht : Linked t.leaves) {l : Leaf} (hpid : l.pid = (route key t).pid)
    (hnext : l.next = (route key t).next) : Linked (setLeaf key t l).leaves := by
  obtain ⟨A, B, hAB⟩ := leaves_setLeaf key t
  have hold := hAB (route key t)
  rw [setLeaf_route] at hold
  rw [hold, Linked, List.isChain_append] at ht
  rw [hAB, Linked, List.isChain_append]
  obtain ⟨hA, hB, hjoin⟩ := ht
  refine ⟨hA, ?_, ?_⟩
  · rw [List.isChain_cons] at hB ⊢
    exact ⟨fun b hb => hnext ▸ hB.1 b hb, hB.2⟩
  · rintro a ha b ⟨⟩
    exact (hjoin a ha _ rfl).trans hpid.symm

/-- The records of the tree are those of the other leaves and those of the leaf. -/
theorem records_erase {h : Nat} {t : Tree h} (hs : (t.records.map (·.1)).Pairwise BTreeKey.Lt)
    (hkey : key ∈ (route key t).node.keys) :
    (setLeaf key t ((route key t).erase key)).records = t.records.filter fun r => r.1 ≠ key := by
  rw [records_eq key t, List.map_append, List.map_append] at hs
  obtain ⟨-, hrest, hbefore⟩ := List.pairwise_append.mp hs
  obtain ⟨-, -, hafter⟩ := List.pairwise_append.mp hrest
  have hb : ∀ r ∈ before key t, r.1 ≠ key := fun r hr =>
    (hbefore r.1 (List.mem_map_of_mem hr) key (List.mem_append_left _ hkey)).ne
  have ha : ∀ r ∈ after key t, r.1 ≠ key := fun r hr =>
    (hafter key hkey r.1 (List.mem_map_of_mem hr)).ne.symm
  have hfb : (before key t).filter (fun r => r.1 ≠ key) = before key t :=
    List.filter_eq_self.mpr fun r hr => by simpa using hb r hr
  have hfa : (after key t).filter (fun r => r.1 ≠ key) = after key t :=
    List.filter_eq_self.mpr fun r hr => by simpa using ha r hr
  rw [records_setLeaf, records_eq key t, List.filter_append, List.filter_append, hfb, hfa]
  rfl

theorem WellFormed.route_sorted {h : Nat} {t : Tree h} (ht : WellFormed m t) :
    ((route key t).records.map (·.1)).Pairwise BTreeKey.Lt := by
  refine ht.sorted.sublist (List.Sublist.map _ ?_)
  rw [records_eq key t]
  exact (List.sublist_append_left _ _).trans (List.sublist_append_right _ _)

/-- The tree stays well-formed. -/
theorem WellFormed.erase {h : Nat} {t : Tree h} (ht : WellFormed m t) (ho : Outer key t)
    (hkey : key ∈ (route key t).node.keys) : WellFormed m (setLeaf key t ((route key t).erase key)) := by
  refine ⟨ht.keyed.setLeaf _, ht.separated.setLeaf ht.keyed ho fun r hr => .inl (List.mem_filter.mp hr).1, ?_, ?_,
    linked_setLeaf ht.linked rfl rfl⟩
  · rw [records_erase ht.sorted hkey]
    exact ht.sorted.sublist (List.Sublist.map _ List.filter_sublist)
  · exact ht.atMost.setLeaf (Nat.le_trans (List.length_filter_le ..) ht.atMost.route)

end Tree

/-! ## Two leaves joined -/

/-- The leaf `l` with the records of `r` behind its own. -/
def Leaf.join (l r : Leaf) (next : PageId) : Leaf := { l with next, records := l.records ++ r.records }

theorem Leaf.node_join (l r : Leaf) (next : PageId) :
    (l.join r next).node = { l.node.absorb r.node with next := next } := by
  rw [BTreePage.absorb_eq (show l.node.values = .records (l.records.map (·.2)) from rfl)
    (show r.node.values = .records (r.records.map (·.2)) from rfl)]
  simp [Leaf.join, Leaf.node]

namespace Tree

variable {v : View} {m : Nat} {pid : PageId} {flags : UInt8} {next : PageId} {f g last : Leaf} {s s₂ : BTreeKey}
  {ks : List (Leaf × BTreeKey)}

theorem leaves_two (b : Branch Leaf) : leaves (h := 1) b = b.kids.map (·.1) ++ [b.last] := by
  simp [leaves, Branch.children, List.map_eq_flatMap]

theorem pages_two (b : Branch Leaf) : pages (h := 1) b = b.pid :: (b.kids.map (·.1.pid) ++ [b.last.pid]) := by
  rw [List.map_eq_flatMap]
  simp [pages, Branch.children, List.flatMap_map]

theorem records_two (b : Branch Leaf) :
    records (h := 1) b = b.kids.flatMap (fun c => c.1.records) ++ b.last.records := by
  rw [records, leaves_two, List.flatMap_append, List.flatMap_map, List.flatMap_singleton]

theorem records_joinFirst (pid next : PageId) (flags : UInt8) (f g last : Leaf) (s s₂ : BTreeKey)
    (ks : List (Leaf × BTreeKey)) :
    records (h := 1) ⟨pid, flags, next, (f.join g g.next, s₂) :: ks, last⟩ =
      records (h := 1) ⟨pid, flags, next, (f, s) :: (g, s₂) :: ks, last⟩ := by
  simp [records_two, Leaf.join]

theorem records_joinLast (pid next : PageId) (flags : UInt8) (f last : Leaf) (s : BTreeKey)
    (ks : List (Leaf × BTreeKey)) :
    records (h := 1) ⟨pid, flags, next, ks, f.join last f.next⟩ =
      records (h := 1) ⟨pid, flags, next, ks ++ [(f, s)], last⟩ := by
  simp [records_two, Leaf.join]

/-- The first leaf gets the records of its neighbour. -/
theorem WellFormed.joinFirst
    (hw : WellFormed m (h := 1) ⟨pid, flags, next, (f, s) :: (g, s₂) :: ks, last⟩)
    (hle : f.records.length + g.records.length ≤ m) :
    WellFormed m (h := 1) ⟨pid, flags, next, (f.join g g.next, s₂) :: ks, last⟩ ∧
      records (h := 1) ⟨pid, flags, next, (f.join g g.next, s₂) :: ks, last⟩ =
        records (h := 1) ⟨pid, flags, next, (f, s) :: (g, s₂) :: ks, last⟩ := by
  obtain ⟨⟨-, hkeys, -⟩, ⟨hsep, -⟩, hsorted, ⟨hlen, hmost⟩, hlinked⟩ := hw
  have hrecs := records_joinFirst pid next flags f g last s s₂ ks
  obtain ⟨hf, -, hg, hrest, hks⟩ := hsep
  simp only [records_leaf] at hf hg hrest
  simp only [Branch.keys, List.map_cons, List.pairwise_cons] at hkeys
  refine ⟨⟨⟨by simp, ?_, fun _ _ => trivial⟩, ⟨⟨?_, ?_, hks⟩, fun _ _ => trivial⟩, hrecs ▸ hsorted, ⟨?_, ?_⟩, ?_⟩,
    hrecs⟩
  · simpa only [Branch.keys, List.map_cons, List.pairwise_cons] using hkeys.2
  · intro r hr
    rw [records_leaf] at hr
    rcases List.mem_append.mp hr with hr | hr
    · exact BTreeKey.lt_trans (hf r hr) (hkeys.1 s₂ (by simp))
    · exact hg r hr
  · simpa only [records_leaf] using hrest
  · simp only [List.length_cons] at hlen ⊢
    omega
  · intro c hc
    simp only [Branch.children, List.map_cons, List.cons_append, List.mem_cons] at hc hmost
    rcases hc with rfl | hc
    · simpa [AtMost, Leaf.join] using hle
    · exact hmost c (.inr (.inr hc))
  · rw [leaves_two, Linked] at hlinked ⊢
    simp only [List.map_cons, List.cons_append, List.isChain_cons] at hlinked ⊢
    exact hlinked.2

/-- The leaf before the last one gets the records of the last one. -/
theorem WellFormed.joinLast
    (hw : WellFormed m (h := 1) ⟨pid, flags, next, ks ++ [(f, s)], last⟩) (hne : ks ≠ [])
    (hle : last.records.length + f.records.length ≤ m) :
    WellFormed m (h := 1) ⟨pid, flags, next, ks, f.join last f.next⟩ ∧
      records (h := 1) ⟨pid, flags, next, ks, f.join last f.next⟩ =
        records (h := 1) ⟨pid, flags, next, ks ++ [(f, s)], last⟩ := by
  obtain ⟨⟨-, hkeys, -⟩, ⟨hsep, -⟩, hsorted, ⟨hlen, hmost⟩, hlinked⟩ := hw
  have hrecs := records_joinLast pid next flags f last s ks
  refine ⟨⟨⟨hne, ?_, fun _ _ => trivial⟩, ⟨?_, fun _ _ => trivial⟩, hrecs ▸ hsorted, ⟨?_, ?_⟩, ?_⟩, hrecs⟩
  · rw [Branch.keys, List.map_append] at hkeys
    exact (List.pairwise_append.mp hkeys).1
  · have hks := (bounded_append.mp hsep).1
    simpa [records_leaf, Leaf.join] using hks
  · simp only [List.length_append, List.length_singleton] at hlen ⊢
    omega
  · intro c hc
    rcases List.mem_append.mp hc with hc | hc
    · refine hmost c (List.mem_append_left _ ?_)
      rw [List.map_append]
      exact List.mem_append_left _ hc
    · rw [List.mem_singleton.mp hc]
      simp only [AtMost, Leaf.join, List.length_append]
      omega
  · rw [leaves_two, Linked] at hlinked ⊢
    simp only [List.map_append, List.map_cons, List.map_nil, List.append_assoc, List.cons_append, List.nil_append,
      List.isChain_append] at hlinked ⊢
    refine ⟨hlinked.1, List.isChain_singleton _, ?_⟩
    rintro a ha b ⟨⟩
    exact hlinked.2.2 a ha f rfl

/-- The only leaf that is left gets the records of the last one. -/
theorem WellFormed.joinOnly
    (hw : WellFormed m (h := 1) ⟨pid, flags, next, [(f, s)], last⟩)
    (hle : last.records.length + f.records.length ≤ m) :
    WellFormed m (h := 0) (f.join last f.next) ∧
      records (h := 0) (f.join last f.next) = records (h := 1) ⟨pid, flags, next, [(f, s)], last⟩ := by
  have hrecs : records (h := 0) (f.join last f.next) = records (h := 1) ⟨pid, flags, next, [(f, s)], last⟩ := by
    simp [records_two, records_leaf, Leaf.join]
  refine ⟨⟨trivial, trivial, hrecs ▸ hw.sorted, ?_, List.isChain_singleton _⟩, hrecs⟩
  simp only [AtMost, Leaf.join, List.length_append]
  omega

end Tree

/-! ## What a merge leaves -/

open SomeDB.Tree

/-- The run has returned and left a well-formed tree of at most two levels with these records, whose last leaf
names `next`. -/
def LeavesTree (m : Nat) (recs : List (BTreeKey × RID)) (next : PageId) (r : Except Fault Unit × BTree Disk) : Prop :=
  r.1 = .ok () ∧ ∃ v h, ∃ t : Tree h, h ≤ 1 ∧ Shows r.2 v ∧ Held v t ∧ WellFormed m t ∧ t.records = recs ∧
    t.lastLeaf.next = next

/-- The pages of an index hold one tree only. -/
theorem Held.unique {s : BTree Disk} {v v' : View} (hs : Shows s v) (hs' : Shows s v') {h h' : Nat} {t : Tree h}
    {t' : Tree h'} (ht : Held v t) (ht' : Held v' t') : (⟨h, t⟩ : (h : Nat) × Tree h) = ⟨h', t'⟩ := by
  have hpid : t.pid = t'.pid := by rw [← ht.root, ← ht'.root, ← hs.rootPid, ← hs'.rootPid]
  have hagree : ∀ p ≠ 0, v.node p = v'.node p := fun p hp => (hs.node p hp).symm.trans (hs'.node p hp)
  have hstored : Stored v' t := by
    have hgen : ∀ {k : Nat} (u : Tree k), Stored v u → Stored v' u := by
      intro k u hu
      induction k with
      | zero => exact ⟨hu.1, (hagree _ hu.1).symm.trans hu.2⟩
      | succ k ih => exact ⟨hu.1, (hagree _ hu.1).symm.trans hu.2.1, fun c hc => ih c (hu.2.2 c hc)⟩
    exact hgen t ht.stored
  obtain rfl := hstored.height_eq ht'.stored hpid
  rw [hstored.unique ht'.stored hpid]

theorem LeavesTree.next_eq {m m' : Nat} {recs recs' : List (BTreeKey × RID)} {next next' : PageId}
    {r : Except Fault Unit × BTree Disk} (h : LeavesTree m recs next r) (h' : LeavesTree m' recs' next' r) :
    next = next' := by
  obtain ⟨-, v, k, t, -, hs, ht, -, -, rfl⟩ := h
  obtain ⟨-, v', k', t', -, hs', ht', -, -, rfl⟩ := h'
  exact congrArg (fun t : (h : Nat) × Tree h => t.2.lastLeaf.next) (ht.unique hs hs' ht')

/-- The leaf `l` takes the place of one or two leaves. -/
theorem Tree.Stored.joined {v : View} {b b' : Branch Leaf} {l : Leaf} (hb : Stored (h := 1) v b)
    (hnodup : (pages (h := 1) b).Nodup) (hpid : b'.pid = b.pid) (hl : ∃ c ∈ b.children, c.pid = l.pid)
    (hc : ∀ c ∈ b'.children, c = l ∨ c ∈ b.children ∧ c.pid ≠ l.pid) :
    Stored (h := 1) ((v.put l.pid l.node).put b.pid (node (h := 1) b')) b' := by
  have hmem : ∀ c ∈ b.children, c.pid ≠ b.pid := by
    intro c hc heq
    rw [pages_two] at hnodup
    refine (List.nodup_cons.mp hnodup).1 (heq ▸ ?_)
    rw [Branch.children] at hc
    simpa [eq_comm] using (List.mem_map_of_mem (f := Leaf.pid) hc)
  obtain ⟨d, hd, hdl⟩ := hl
  refine ⟨hpid ▸ hb.1, ?_, fun c hmem' => ?_⟩
  · rw [hpid]
    exact View.put_node_same ..
  · rcases hc c hmem' with rfl | ⟨hcb, hne⟩
    · have hcpid : Leaf.pid c ≠ b.pid := hdl ▸ hmem d hd
      exact ⟨hdl ▸ (hb.2.2 d hd).1, (View.put_node_ne _ _ hcpid).trans (View.put_node_same ..)⟩
    · obtain ⟨h0, hnode⟩ := hb.2.2 c hcb
      exact ⟨h0, (View.put_node_ne _ _ (hmem c hcb)).trans ((View.put_node_ne _ _ hne).trans hnode)⟩

/-- The first leaf of a branch is joined with the second one. -/
theorem Tree.Stored.joinFirst {v : View} {pid next : PageId} {flags : UInt8} {f g last : Leaf} {s s₂ : BTreeKey}
    {ks : List (Leaf × BTreeKey)} (hb : Stored (h := 1) v ⟨pid, flags, next, (f, s) :: (g, s₂) :: ks, last⟩)
    (hnodup : (pages (h := 1) ⟨pid, flags, next, (f, s) :: (g, s₂) :: ks, last⟩).Nodup) :
    Stored (h := 1) ((v.put f.pid (f.join g g.next).node).put pid
      (node (h := 1) ⟨pid, flags, next, (f.join g g.next, s₂) :: ks, last⟩))
      ⟨pid, flags, next, (f.join g g.next, s₂) :: ks, last⟩ := by
  refine hb.joined (l := f.join g g.next) hnodup rfl ⟨f, by simp [Branch.children], rfl⟩ ?_
  rw [pages_two] at hnodup
  simp only [List.map_cons, List.cons_append, List.nodup_cons, List.mem_cons, List.mem_append,
    List.not_mem_nil, or_false, not_or] at hnodup
  intro c hc
  simp only [Branch.children, List.map_cons, List.cons_append, List.mem_cons, List.mem_append, List.mem_map,
    List.not_mem_nil, or_false] at hc
  rcases hc with rfl | ⟨x, hx, rfl⟩ | rfl
  · exact .inl rfl
  · refine .inr ⟨by simpa [Branch.children] using .inr (.inr (.inl ⟨x.2, hx⟩)), fun heq => ?_⟩
    exact hnodup.2.1.2.1 (List.mem_map.mpr ⟨x, hx, heq⟩)
  · exact .inr ⟨by simp [Branch.children], fun heq => hnodup.2.1.2.2 heq.symm⟩

/-- There are only pages of the branch in what is left. -/
theorem Tree.pages_joinFirst (pid next : PageId) (flags : UInt8) (f g last : Leaf) (s s₂ : BTreeKey)
    (ks : List (Leaf × BTreeKey)) :
    (pages (h := 1) ⟨pid, flags, next, (f.join g g.next, s₂) :: ks, last⟩).Sublist
      (pages (h := 1) ⟨pid, flags, next, (f, s) :: (g, s₂) :: ks, last⟩) := by
  rw [pages_two, pages_two]
  exact ((List.sublist_cons_self _ _).cons_cons _).cons_cons _

/-- The parent as `merge` leaves it. -/
theorem Tree.node_joinLast (pid next : PageId) (flags : UInt8) (f last : Leaf) (s : BTreeKey)
    {ks : List (Leaf × BTreeKey)} (hks : ks ≠ []) :
    (node (h := 1) ⟨pid, flags, next, ks ++ [(f, s)], last⟩).popLast f.pid =
      node (h := 1) ⟨pid, flags, next, ks, f.join last f.next⟩ := by
  rw [BTreePage.popLast_eq rfl, if_neg (by simpa [node, Branch.keys] using hks)]
  simp [node, Branch.keys, Tree.pid, Leaf.join]

/-- The last leaf of a branch is joined with the one before it. -/
theorem Tree.Stored.joinLast {v : View} {pid next : PageId} {flags : UInt8} {f last : Leaf} {s : BTreeKey}
    {ks : List (Leaf × BTreeKey)} (hb : Stored (h := 1) v ⟨pid, flags, next, ks ++ [(f, s)], last⟩)
    (hnodup : (pages (h := 1) ⟨pid, flags, next, ks ++ [(f, s)], last⟩).Nodup) :
    Stored (h := 1) ((v.put f.pid (f.join last f.next).node).put pid
      (node (h := 1) ⟨pid, flags, next, ks, f.join last f.next⟩)) ⟨pid, flags, next, ks, f.join last f.next⟩ := by
  refine hb.joined (l := f.join last f.next) hnodup rfl ⟨f, by simp [Branch.children], rfl⟩ ?_
  rw [pages_two] at hnodup
  simp only [List.map_append, List.map_cons, List.map_nil, List.append_assoc, List.cons_append, List.nil_append,
    List.nodup_cons, List.nodup_append, List.mem_cons, List.not_mem_nil, or_false] at hnodup
  intro c hc
  simp only [Branch.children, List.mem_append, List.mem_map, List.mem_singleton] at hc
  rcases hc with ⟨x, hx, rfl⟩ | rfl
  · refine .inr ⟨by simpa [Branch.children] using .inl ⟨x.2, hx⟩, ?_⟩
    exact hnodup.2.2.2 _ (List.mem_map.mpr ⟨x, hx, rfl⟩) f.pid (.inl rfl)
  · exact .inl rfl

theorem Tree.pages_joinLast (pid next : PageId) (flags : UInt8) (f last : Leaf) (s : BTreeKey)
    (ks : List (Leaf × BTreeKey)) :
    (pages (h := 1) ⟨pid, flags, next, ks, f.join last f.next⟩).Sublist
      (pages (h := 1) ⟨pid, flags, next, ks ++ [(f, s)], last⟩) := by
  rw [pages_two, pages_two]
  simp [Leaf.join]

section Merge

variable {t : BTree Disk} {v : View} {pid : PageId} {flags : UInt8} {next : PageId} {f g last : Leaf}
  {s s₂ : BTreeKey} {ks : List (Leaf × BTreeKey)}

/-- The leaf `l` and its neighbour `g` are kept. -/
theorem merge_keep {b : Branch Leaf} (hs : Shows t v) (hb : Held (h := 1) v b)
    (hw : WellFormed (h := 1) v.maxSize.toNat b) {l : Leaf} (hl : l ∈ b.children) (hg : g ∈ b.children) {idx : Int}
    (hq : BTree.sibPid (b.kids.map (·.1.pid)) l.node (idx = -1) = .ok g.pid)
    (hkeep : g.records = [] ∨ v.maxSize.toNat < l.records.length + g.records.length)
    (hfit : AllFit (BTree.merge l.pid [(b.pid, idx)] t).2) :
    LeavesTree v.maxSize.toNat (records (h := 1) b) b.last.next (BTree.merge l.pid [(b.pid, idx)] t) := by
  obtain ⟨hl0, hln⟩ := hb.stored.2.2 l hl
  obtain ⟨hg0, hgn⟩ := hb.stored.2.2 g hg
  obtain ⟨root, t', hrun, -, hs'⟩ := BTree.merge_leaf_keep (p := l.pid) (q := g.pid) hs hb.stored.1
    hb.stored.2.1 rfl hl0 hln rfl hq ((hs.node _ hg0).trans hgn) rfl (by simpa [Leaf.node] using hkeep) hfit
  rw [hrun, BTree.mergeTail_nil_of_ne (by simpa [node, Branch.keys] using hw.keyed.1)]
  exact ⟨rfl, v, 1, b, Nat.le_refl _, hs', hb, hw, rfl, rfl⟩

/-- The first leaf is joined with a leaf that is not the last one. -/
theorem merge_joinFirst (hs : Shows t v)
    (hb : Held (h := 1) v ⟨pid, flags, next, (f, s) :: (g, s₂) :: ks, last⟩)
    (hw : WellFormed (h := 1) v.maxSize.toNat ⟨pid, flags, next, (f, s) :: (g, s₂) :: ks, last⟩)
    (hne : g.records ≠ []) (hle : f.records.length + g.records.length ≤ v.maxSize.toNat)
    (hfit : AllFit (BTree.merge f.pid [(pid, 0)] t).2) :
    LeavesTree v.maxSize.toNat (records (h := 1) ⟨pid, flags, next, (f, s) :: (g, s₂) :: ks, last⟩) last.next
      (BTree.merge f.pid [(pid, 0)] t) := by
  obtain ⟨hf0, hfn⟩ := hb.stored.2.2 f (by simp [Branch.children])
  obtain ⟨hg0, hgn⟩ := hb.stored.2.2 g (by simp [Branch.children])
  have hlink : f.next = g.pid := by
    have hlinked := hw.linked
    rw [leaves_two, Linked] at hlinked
    simp only [List.map_cons, List.cons_append, List.isChain_cons_cons] at hlinked
    exact hlinked.1
  have hnodup := hb.nodup
  rw [pages_two] at hnodup
  simp only [List.map_cons, List.cons_append, List.nodup_cons, List.mem_cons, List.mem_append,
    List.not_mem_nil, or_false, not_or] at hnodup
  obtain ⟨t', hrun, -, hs'⟩ := BTree.merge_leaf_right (p := f.pid) (q := g.pid) hs hb.stored.1
    hb.stored.2.1 rfl hf0 hfn rfl ((hs.node _ hg0).trans hgn) rfl hlink rfl (by simpa [Leaf.node] using hne)
    (by simpa [Leaf.node] using hle) hnodup.2.2.1.2 (by simp [node, Branch.keys]) hfit
  obtain ⟨hw', hrecs⟩ := hw.joinFirst hle
  have hroot : (node (h := 1) ⟨pid, flags, next, (f, s) :: (g, s₂) :: ks, last⟩).popFirst f.pid =
      node (h := 1) ⟨pid, flags, next, (f.join g g.next, s₂) :: ks, last⟩ := rfl
  have hjoin : ({ f.node.absorb g.node with next := g.node.next } : BTreePage) = (f.join g g.next).node :=
    (Leaf.node_join f g g.next).symm
  rw [hroot] at hrun hs'
  rw [hjoin] at hs'
  rw [hrun, BTree.mergeTail_nil_of_ne (by simp [node, Branch.keys])]
  refine ⟨rfl, _, 1, _, Nat.le_refl _, hs', ?_, hw', hrecs, rfl⟩
  exact ⟨hb.root, hb.stored.joinFirst hb.nodup, hb.nodup.sublist (pages_joinFirst ..)⟩

/-- The sibling to the left of the last leaf. -/
theorem sibPid_last (ks : List (Leaf × BTreeKey)) (l : Leaf) :
    BTree.sibPid ((ks ++ [(f, s)]).map (·.1.pid)) l.node (decide ((-1 : Int) = -1)) = .ok f.pid := by
  rw [BTree.sibPid, if_pos (by decide)]
  exact vecAt_eq (by simp)

/-- The last leaf is joined with the one before it. -/
theorem merge_joinLast (hs : Shows t v) (hb : Held (h := 1) v ⟨pid, flags, next, ks ++ [(f, s)], last⟩)
    (hw : WellFormed (h := 1) v.maxSize.toNat ⟨pid, flags, next, ks ++ [(f, s)], last⟩) (hks : ks ≠ [])
    (hne : f.records ≠ []) (hle : last.records.length + f.records.length ≤ v.maxSize.toNat)
    (hfit : AllFit (BTree.merge last.pid [(pid, -1)] t).2) :
    LeavesTree v.maxSize.toNat (records (h := 1) ⟨pid, flags, next, ks ++ [(f, s)], last⟩) f.next
      (BTree.merge last.pid [(pid, -1)] t) := by
  obtain ⟨hf0, hfn⟩ := hb.stored.2.2 f (by simp [Branch.children])
  obtain ⟨hl0, hln⟩ := hb.stored.2.2 last (by simp [Branch.children])
  obtain ⟨t', hrun, -, hs'⟩ := BTree.merge_leaf_left (p := last.pid) (q := f.pid) hs hb.stored.1
    hb.stored.2.1 rfl hl0 hln rfl (sibPid_last ks last) ((hs.node _ hf0).trans hfn) rfl rfl
    (by simp [node, Branch.keys]) (by simpa [Leaf.node] using hne) (by simpa [Leaf.node] using hle) hfit
  obtain ⟨hw', hrecs⟩ := hw.joinLast hks hle
  have hroot := node_joinLast pid next flags f last s hks
  have hjoin : f.node.absorb last.node = (f.join last f.next).node :=
    (Leaf.node_join f last f.next).symm
  rw [hroot] at hrun hs'
  rw [hjoin] at hs'
  rw [hrun, BTree.mergeTail_nil_of_ne (by simpa [node, Branch.keys] using hks)]
  refine ⟨rfl, _, 1, _, Nat.le_refl _, hs', ?_, hw', hrecs, rfl⟩
  exact ⟨hb.root, hb.stored.joinLast hb.nodup, hb.nodup.sublist (pages_joinLast ..)⟩

/-- The two leaves of a root with one key are joined, and the root goes. -/
theorem merge_joinOnly (hs : Shows t v) (hb : Held (h := 1) v ⟨pid, flags, next, [(f, s)], last⟩)
    (hw : WellFormed (h := 1) v.maxSize.toNat ⟨pid, flags, next, [(f, s)], last⟩)
    (hne : f.records ≠ []) (hle : last.records.length + f.records.length ≤ v.maxSize.toNat)
    (hfit : AllFit (BTree.merge last.pid [(pid, -1)] t).2) :
    LeavesTree v.maxSize.toNat (records (h := 1) ⟨pid, flags, next, [(f, s)], last⟩) f.next
      (BTree.merge last.pid [(pid, -1)] t) := by
  obtain ⟨hf0, hfn⟩ := hb.stored.2.2 f (by simp [Branch.children])
  obtain ⟨hl0, hln⟩ := hb.stored.2.2 last (by simp [Branch.children])
  have hnodup := hb.nodup
  rw [pages_two] at hnodup
  have hfp : f.pid ≠ pid := fun heq => (List.nodup_cons.mp hnodup).1 (by simp [heq])
  obtain ⟨t', hrun, -, hs'⟩ := BTree.merge_leaf_left (p := last.pid) (q := f.pid) hs hb.stored.1
    hb.stored.2.1 rfl hl0 hln rfl (sibPid_last [] last) ((hs.node _ hf0).trans hfn) rfl rfl
    (by simp [node, Branch.keys]) (by simpa [Leaf.node] using hne) (by simpa [Leaf.node] using hle) hfit
  obtain ⟨hw', hrecs⟩ := hw.joinOnly hle
  obtain ⟨t'', hrun', hs''⟩ := BTree.mergeTail_nil_of_eq (c := pid) hs'
    (show ((node (h := 1) ⟨pid, flags, next, [(f, s)], last⟩).popLast f.pid).keys = [] from rfl) f.pid
  rw [hrun, hrun']
  refine ⟨rfl, _, 0, f.join last f.next, Nat.zero_le _, hs'', ⟨rfl, ⟨hf0, ?_⟩, List.pairwise_singleton ..⟩, hw',
    hrecs, rfl⟩
  rw [Leaf.node_join]
  exact (View.put_node_ne _ _ hfp).trans (View.put_node_same ..)

end Merge

/-! ## A removal -/

section Removal

variable {s : BTree Disk} {v : View} {key : BTreeKey} {m : Nat}

/-- The record is taken out of its leaf, and the merge begins on a well-formed tree. -/
theorem Held.remove_start (hs : Shows s v) {h : Nat} {t : Tree h} (ht : Held v t) (hw : WellFormed m t)
    (hkey : key ∈ (route key t).node.keys) (hfit : AllFit (BTree.remove key s).2) :
    ∃ s₁ v₁, BTree.remove key s = BTree.removeTail (route key t).pid (crumbs key t) s₁ ∧
      AllFit (BTree.removeTail (route key t).pid (crumbs key t) s₁).2 ∧ Shows s₁ v₁ ∧ v₁.maxSize = v.maxSize ∧
      Held v₁ (Tree.setLeaf key t ((route key t).erase key)) := by
  have hpath := ht.root ▸ ht.stored.path hw.keyed key
  have hlen : (crumbs key t).length < 2 ^ 32 := by
    rw [crumbs_length]
    exact ht.stored.height_lt
  obtain ⟨s₁, hrun, hfit₁, hs₁⟩ := SomeDB.remove_start hs hpath hlen hkey hfit
  rw [← node_erase hw.route_sorted] at hs₁
  exact ⟨s₁, _, hrun, hfit₁, hs₁, rfl, ht.setLeaf (l := (route key t).erase key) rfl⟩

/-- The same for a key at an outer leaf, when the leaf, the path to it and the tree without the record are known. -/
theorem Held.remove_start_at (hs : Shows s v) {h : Nat} {t t' : Tree h} {l : Leaf} {cs : List Crumb} (ht : Held v t)
    (hw : WellFormed m t) (hroute : route key t = l) (hset : Tree.setLeaf key t (l.erase key) = t')
    (hcrumbs : crumbs key t = cs) (ho : Outer key t) (hkey : key ∈ l.node.keys)
    (hfit : AllFit (BTree.remove key s).2) :
    ∃ s₁ v₁, BTree.remove key s = BTree.removeTail l.pid cs s₁ ∧ AllFit (BTree.removeTail l.pid cs s₁).2 ∧
      Shows s₁ v₁ ∧ v₁.maxSize = v.maxSize ∧ Held v₁ t' ∧ WellFormed m t' ∧
      records t' = (records t).filter fun r => r.1 ≠ key := by
  subst hroute hset hcrumbs
  obtain ⟨s₁, v₁, hrun, hfit₁, hs₁, hmax, ht₁⟩ := ht.remove_start hs hw hkey hfit
  exact ⟨s₁, v₁, hrun, hfit₁, hs₁, hmax, ht₁, hw.erase ho hkey, records_erase hw.sorted hkey⟩

/-- The root keeps its only key and loses the last leaf: the key is in the first leaf, the last leaf is not empty,
and the two fit into one node without the record. -/
def LosesLast (m : Nat) (key : BTreeKey) (t : Branch Leaf) : Prop :=
  ∃ f s, t.kids = [(f, s)] ∧ key ∈ f.node.keys ∧ t.last.records ≠ [] ∧
    f.records.length - 1 + t.last.records.length ≤ m

/-- The last leaf is joined with the one before it. -/
def JoinsLast (m : Nat) (key : BTreeKey) (t : Branch Leaf) : Prop :=
  ∃ ks f s, t.kids = ks ++ [(f, s)] ∧ key ∈ t.last.node.keys ∧ f.records ≠ [] ∧
    t.last.records.length - 1 + f.records.length ≤ m

section First

variable {pid : PageId} {flags : UInt8} {next : PageId} {f last : Leaf} {sep : BTreeKey}
  {ks : List (Leaf × BTreeKey)}

/-- A key of the first leaf is below the first separator. -/
theorem Tree.WellFormed.goesFirst (hw : WellFormed m (h := 1) ⟨pid, flags, next, (f, sep) :: ks, last⟩)
    (hkey : key ∈ f.node.keys) : BTreeKey.Lt key sep := by
  obtain ⟨r, hr, rfl⟩ := List.mem_map.mp hkey
  exact hw.separated.1.1 r (by rwa [records_leaf])

/-- A key of the last leaf is not below a separator. -/
theorem Tree.WellFormed.goesLast {t : Branch Leaf} (hw : WellFormed m (h := 1) t) (hkey : key ∈ t.last.node.keys) :
    ∀ a ∈ t.keys, ¬ BTreeKey.Lt key a := by
  obtain ⟨r, hr, rfl⟩ := List.mem_map.mp hkey
  exact fun a ha => Bounded.not_lt_of_mem hw.separated.1 ha r (by rwa [records_leaf])

theorem Tree.WellFormed.goesFirst_last {t : Branch Leaf} (hw : WellFormed m (h := 1) t)
    (hkey : key ∈ t.last.node.keys) : t.goesFirst key = false := by
  have hge := hw.goesLast hkey
  rcases t with ⟨pid, flags, next, _ | ⟨⟨f, sep⟩, ks⟩, last⟩
  · rfl
  · simpa [Branch.goesFirst] using hge sep (by simp [Branch.keys])

theorem Tree.WellFormed.route_first (hw : WellFormed m (h := 1) ⟨pid, flags, next, (f, sep) :: ks, last⟩)
    (hkey : key ∈ f.node.keys) : route key (h := 1) ⟨pid, flags, next, (f, sep) :: ks, last⟩ = f := by
  simp [route, Branch.child, hw.goesFirst hkey]

theorem Tree.WellFormed.goesFirst_head {t : Branch Leaf} (hw : WellFormed m (h := 1) t)
    (hkids : t.kids = (f, sep) :: ks) (hkey : key ∈ f.node.keys) : BTreeKey.Lt key sep := by
  obtain ⟨pid, flags, next, kids, last⟩ := t
  obtain rfl : kids = (f, sep) :: ks := hkids
  exact hw.goesFirst hkey

theorem Tree.WellFormed.mem_route_head {t : Branch Leaf} (hw : WellFormed m (h := 1) t)
    (hf : f ∈ t.children.head?) (hkey : key ∈ f.node.keys) : key ∈ (route key (h := 1) t).node.keys := by
  obtain ⟨pid, flags, next, kids, last⟩ := t
  obtain ⟨⟨f', sep⟩, ks, rfl⟩ := List.exists_cons_of_ne_nil (show kids ≠ [] from hw.keyed.1)
  obtain rfl : f' = f := by simpa [Branch.children] using hf
  rw [hw.route_first hkey]
  exact hkey

/-- The merge that a removal from the first leaf begins. -/
theorem remove_first_start (hs : Shows s v) (ht : Held (h := 1) v ⟨pid, flags, next, (f, sep) :: ks, last⟩)
    (hw : WellFormed m (h := 1) ⟨pid, flags, next, (f, sep) :: ks, last⟩) (hkey : key ∈ f.node.keys)
    (hfit : AllFit (BTree.remove key s).2) :
    ∃ s₁ v₁, BTree.remove key s = BTree.merge f.pid [(pid, 0)] s₁ ∧
      AllFit (BTree.merge f.pid [(pid, 0)] s₁).2 ∧ Shows s₁ v₁ ∧ v₁.maxSize = v.maxSize ∧
      Held (h := 1) v₁ ⟨pid, flags, next, (f.erase key, sep) :: ks, last⟩ ∧
      WellFormed m (h := 1) ⟨pid, flags, next, (f.erase key, sep) :: ks, last⟩ ∧
      records (h := 1) ⟨pid, flags, next, (f.erase key, sep) :: ks, last⟩ =
        (records (h := 1) ⟨pid, flags, next, (f, sep) :: ks, last⟩).filter fun r => r.1 ≠ key := by
  have hlt := hw.goesFirst hkey
  have hroute := hw.route_first hkey
  have hset : setLeaf key (h := 1) ⟨pid, flags, next, (f, sep) :: ks, last⟩ (f.erase key) =
      ⟨pid, flags, next, (f.erase key, sep) :: ks, last⟩ := by
    simp [setLeaf, Branch.setChild, hlt]
  have hcrumbs : crumbs key (h := 1) ⟨pid, flags, next, (f, sep) :: ks, last⟩ = [(pid, 0)] := by
    simp [crumbs, Branch.goesFirst, hlt]
  have ho : Outer key (h := 1) ⟨pid, flags, next, (f, sep) :: ks, last⟩ :=
    ⟨.inl (by simp [Branch.goesFirst, hlt]), trivial⟩
  exact ht.remove_start_at hs hw hroute hset hcrumbs ho hkey hfit

/-- The merge that a removal from the last leaf begins. -/
theorem remove_last_start {t : Branch Leaf} (hs : Shows s v) (ht : Held (h := 1) v t)
    (hw : WellFormed m (h := 1) t) (hkey : key ∈ t.last.node.keys) (hfit : AllFit (BTree.remove key s).2) :
    ∃ s₁ v₁, BTree.remove key s = BTree.merge t.last.pid [(t.pid, -1)] s₁ ∧
      AllFit (BTree.merge t.last.pid [(t.pid, -1)] s₁).2 ∧ Shows s₁ v₁ ∧ v₁.maxSize = v.maxSize ∧
      Held (h := 1) v₁ { t with last := t.last.erase key } ∧
      WellFormed m (h := 1) { t with last := t.last.erase key } ∧
      records (h := 1) { t with last := t.last.erase key } =
        (records (h := 1) t).filter fun r => r.1 ≠ key := by
  have hge := hw.goesLast hkey
  have hgoes := hw.goesFirst_last hkey
  have hroute : route key (h := 1) t = t.last := Branch.child_of_last hgoes
  have hset : setLeaf key (h := 1) t (t.last.erase key) = { t with last := t.last.erase key } := by
    rcases t with ⟨pid, flags, next, _ | ⟨⟨f, sep⟩, ks⟩, last⟩
    · rfl
    · have hlt : ¬ BTreeKey.Lt key sep := hge sep (by simp [Branch.keys])
      simp [setLeaf, Branch.setChild, hlt]
  have hcrumbs : crumbs key (h := 1) t = [(t.pid, -1)] := by
    simp [crumbs, hgoes]
  have ho : Outer key (h := 1) t := ⟨.inr fun a ha => hge a (List.mem_of_getLast? ha), trivial⟩
  exact ht.remove_start_at hs hw hroute hset hcrumbs ho hkey hfit

end First

/-- A removal from the first leaf keeps the tree, unless the last leaf is lost. -/
theorem remove_first {t : Branch Leaf} {f : Leaf} {sep : BTreeKey} {ks : List (Leaf × BTreeKey)} (hs : Shows s v)
    (ht : Held (h := 1) v t) (hw : WellFormed v.maxSize.toNat (h := 1) t) (hkids : t.kids = (f, sep) :: ks)
    (hkey : key ∈ f.node.keys) (hlost : ¬ LosesLast v.maxSize.toNat key t) (hfit : AllFit (BTree.remove key s).2) :
    LeavesTree v.maxSize.toNat ((records (h := 1) t).filter fun r => r.1 ≠ key) t.last.next
      (BTree.remove key s) := by
  obtain ⟨pid, flags, next, kids, last⟩ := t
  obtain rfl : kids = (f, sep) :: ks := hkids
  have hsorted : (f.records.map (·.1)).Pairwise BTreeKey.Lt :=
    hw.sorted.sublist (List.Sublist.map _ (by rw [records_two]; simp))
  have hlen := length_erase hsorted hkey
  obtain ⟨s₁, v₁, hrun, hfit₁, hs₁, hmax, ht₁, hw₁, hrecs⟩ := remove_first_start hs ht hw hkey hfit
  rw [← hmax] at hw₁ hlost ⊢
  rw [hrun, ← hrecs]
  have hlinked := hw₁.linked
  rw [leaves_two, Linked] at hlinked
  rcases ks with _ | ⟨⟨g, s₂⟩, ks⟩
  · have hnext : f.next = last.pid := by simpa [Leaf.erase] using hlinked
    have hkeep : last.records = [] ∨ v₁.maxSize.toNat < (f.erase key).records.length + last.records.length := by
      by_contra hnot
      simp only [not_or, Nat.not_lt] at hnot
      exact hlost ⟨f, sep, rfl, hkey, hnot.1, hlen ▸ hnot.2⟩
    exact merge_keep hs₁ ht₁ hw₁ (l := f.erase key) (g := last) (by simp [Branch.children])
      (by simp [Branch.children]) (by simp [BTree.sibPid, Leaf.node, Leaf.erase, hnext]) hkeep hfit₁
  · have hnext : f.next = g.pid := by
      simp only [List.map_cons, List.cons_append, List.isChain_cons_cons] at hlinked
      exact hlinked.1
    by_cases hkeep : g.records = [] ∨ v₁.maxSize.toNat < (f.erase key).records.length + g.records.length
    · exact merge_keep hs₁ ht₁ hw₁ (l := f.erase key) (g := g) (by simp [Branch.children])
        (by simp [Branch.children]) (by simp [BTree.sibPid, Leaf.node, Leaf.erase, hnext]) hkeep hfit₁
    · simp only [not_or, Nat.not_lt] at hkeep
      exact merge_joinFirst (f := f.erase key) hs₁ ht₁ hw₁ hkeep.1 hkeep.2 hfit₁

/-- A removal from the last leaf keeps the tree. The leaf before it, if the two are joined, still names it. -/
theorem remove_last {t : Branch Leaf} (hs : Shows s v) (ht : Held (h := 1) v t)
    (hw : WellFormed v.maxSize.toNat (h := 1) t) (hkey : key ∈ t.last.node.keys)
    (hfit : AllFit (BTree.remove key s).2) :
    ∃ p, LeavesTree v.maxSize.toNat ((records (h := 1) t).filter fun r => r.1 ≠ key) p (BTree.remove key s) ∧
      (JoinsLast v.maxSize.toNat key t → p ≠ 0) ∧ (¬ JoinsLast v.maxSize.toNat key t → p = t.last.next) := by
  obtain ⟨pid, flags, next, kids, last⟩ := t
  have hne : kids ≠ [] := hw.keyed.1
  obtain ⟨ks, f, sep, rfl⟩ : ∃ ks f sep, kids = ks ++ [(f, sep)] :=
    ⟨kids.dropLast, (kids.getLast hne).1, (kids.getLast hne).2, (List.dropLast_append_getLast hne).symm⟩
  have hsorted : (last.records.map (·.1)).Pairwise BTreeKey.Lt :=
    hw.sorted.sublist (List.Sublist.map _ (by rw [records_two]; simp))
  have hlen := length_erase hsorted hkey
  have hnext : f.next = last.pid := by
    have hlinked := hw.linked
    rw [leaves_two, Linked] at hlinked
    simp only [List.map_append, List.map_cons, List.map_nil, List.append_assoc, List.cons_append, List.nil_append,
      List.isChain_append, List.isChain_cons_cons] at hlinked
    exact hlinked.2.1.1
  obtain ⟨s₁, v₁, hrun, hfit₁, hs₁, hmax, ht₁, hw₁, hrecs⟩ := remove_last_start hs ht hw hkey hfit
  rw [← hmax] at hw₁ ⊢
  rw [hrun, ← hrecs]
  have hjoins : JoinsLast v₁.maxSize.toNat key ⟨pid, flags, next, ks ++ [(f, sep)], last⟩ ↔
      f.records ≠ [] ∧ (last.erase key).records.length + f.records.length ≤ v₁.maxSize.toNat := by
    constructor
    · rintro ⟨ks', f', sep', heq, -, hf, hle⟩
      obtain ⟨-, heq⟩ := List.append_inj' heq rfl
      cases heq
      exact ⟨hf, hlen ▸ hle⟩
    · rintro ⟨hf, hle⟩
      exact ⟨ks, f, sep, rfl, hkey, hf, hlen ▸ hle⟩
  by_cases hjoin : JoinsLast v₁.maxSize.toNat key ⟨pid, flags, next, ks ++ [(f, sep)], last⟩
  · obtain ⟨hf, hle⟩ := hjoins.mp hjoin
    refine ⟨f.next, ?_, fun _ => ?_, fun hnot => absurd hjoin hnot⟩
    · by_cases hks : ks = []
      · subst hks
        exact merge_joinOnly hs₁ ht₁ hw₁ hf hle hfit₁
      · exact merge_joinLast hs₁ ht₁ hw₁ hks hf hle hfit₁
    · rw [hnext]
      exact (ht.stored.2.2 last (by simp [Branch.children])).1
  · refine ⟨last.next, ?_, fun hj => absurd hj hjoin, fun _ => rfl⟩
    have hkeep : f.records = [] ∨ v₁.maxSize.toNat < (last.erase key).records.length + f.records.length := by
      by_contra hnot
      simp only [not_or, Nat.not_lt] at hnot
      exact hjoin (hjoins.mpr hnot)
    exact merge_keep hs₁ ht₁ hw₁ (l := last.erase key) (g := f) (by simp [Branch.children])
      (by simp [Branch.children]) (sibPid_last ks _) hkeep hfit₁

end Removal

/-- Two leaves below a root. -/
def twoLeaves : Branch Leaf := ⟨3, 0, 0, [(oneRecord 1 2 65, byteKey 68)], oneRecord 2 0 68⟩

/-- Its nodes, page by page. -/
def twoLeavesNodes : List BTreePage :=
  [(oneRecord 1 2 65).node, (oneRecord 2 0 68).node, Tree.node (h := 1) twoLeaves]

theorem twoLeaves_shows : Shows (indexOf 2 3 twoLeavesNodes) (viewOf 2 3 twoLeavesNodes) :=
  indexOf_shows (by decide)

theorem twoLeaves_held : Held (h := 1) (viewOf 2 3 twoLeavesNodes) twoLeaves := by
  refine ⟨rfl, ⟨by decide, rfl, fun c hc => ?_⟩, by decide⟩
  simp only [twoLeaves, Branch.children, List.map_cons, List.map_nil, List.cons_append, List.nil_append,
    List.mem_cons, List.not_mem_nil, or_false] at hc
  rcases hc with rfl | rfl
  · exact ⟨by decide, rfl⟩
  · exact ⟨by decide, rfl⟩

theorem twoLeaves_wellFormed : WellFormed 2 (h := 1) twoLeaves := by
  refine ⟨⟨by decide, by decide, fun _ _ => trivial⟩, ⟨⟨?_, ?_, trivial⟩, fun _ _ => trivial⟩, by decide,
    ⟨by decide, ?_⟩, by simp [Linked, leaves_two, twoLeaves, oneRecord]⟩
  · decide
  · decide
  · intro c hc
    simp only [twoLeaves, Branch.children, List.map_cons, List.map_nil, List.cons_append, List.nil_append,
      List.mem_cons, List.not_mem_nil, or_false] at hc
    rcases hc with rfl | rfl
    · exact Nat.le_succ 1
    · exact Nat.le_succ 1

end SomeDB
