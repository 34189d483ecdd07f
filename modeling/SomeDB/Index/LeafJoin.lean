import SomeDB.Index.Reopen
import SomeDB.Index.LeafChain

/-!
# The chain of leaves over a run

A removal joins the leaf of the search with the next one, or with the one before it if it is the last below its
parent. Only the first case keeps the chain, and only if the next leaf is not the last. With the insertions of
`Index.LeafChain` this gives the condition on one call, and by induction the theorem about runs.
-/

namespace SomeDB

open Lib SomeDB.Tree

/-! ## Removals -/

/-- The page of the sibling that `merge` chooses for a leaf below `parent`. -/
def siblingOf (parent leaf : BTreePage) (idx : Int) : Option PageId :=
  match parent.values with
  | .records _ => none
  | .children cs => (BTree.sibPid cs leaf (idx = -1)).toOption

/-- Page `q` holds a node with keys that fits into one node with the leaf, when the leaf has lost a record. -/
def joins (t : BTree Disk) (leaf : BTreePage) (q : PageId) : Bool :=
  (t.bpm.nodeAt q).any fun sib =>
    sib.keys.length ≠ 0 ∧ leaf.keys.length - 1 + sib.keys.length ≤ t.maxSize.toNat

/-- If the removal joins its leaf with another, that is the next one and not the last below their parent. -/
def joinsInChain (t : BTree Disk) (key : BTreeKey) : Bool :=
  match BTree.findLeaf key t with
  | (.ok (_, leaf, top :: _), _) => (t.bpm.nodeAt top.1).all fun parent =>
      top.2 != -1 && leaf.next != parent.rightmostPtr || !(siblingOf parent leaf top.2).any (joins t leaf)
  | _ => true

/-- The leaf of the search below `b` is joined with one to its left, or with the last one. -/
def JoinsEnd (m : Nat) (key : BTreeKey) (b : Branch Leaf) : Prop :=
  (b.goesFirst key = true ∧ ∃ f s, b.kids = [(f, s)] ∧ b.last.records ≠ [] ∧
    f.records.length + b.last.records.length ≤ m) ∨
  (b.goesFirst key = false ∧ ∃ ks f s, b.kids = ks ++ [(f, s)] ∧ f.records ≠ [] ∧
    b.last.records.length + f.records.length ≤ m)

/-- The nodes of `v'` may be others than those of `v`. -/
structure SameMeta (v v' : View) : Prop where
  rootPid : v'.rootPid = v.rootPid
  maxSize : v'.maxSize = v.maxSize
  tidy : v.Tidy → v'.Tidy

theorem SameMeta.put (v : View) (p : PageId) (n : BTreePage) : SameMeta v (v.put p n) :=
  ⟨rfl, rfl, fun h => h.put p n⟩

theorem SameMeta.trans {v v' v'' : View} (h : SameMeta v v') (h' : SameMeta v' v'') : SameMeta v v'' :=
  ⟨h'.rootPid.trans h.rootPid, h'.maxSize.trans h.maxSize, h'.tidy ∘ h.tidy⟩

/-- What a merge of a leaf makes of the branch above it, which stays in its page. -/
structure Rejoined (v v' : View) (b b' : Branch Leaf) : Prop where
  stored : Stored (h := 1) v' b'
  pid : b'.pid = b.pid
  kids : b'.kids ≠ []
  pages : (pages (h := 1) b').Sublist (pages (h := 1) b)
  links : Relinks (leaves (h := 1) b) (leaves (h := 1) b')
  others : ∀ p ∉ Tree.pages (h := 1) b, v'.node p = v.node p
  same : SameMeta v v'

theorem Rejoined.refl {v : View} {b : Branch Leaf} (hb : Stored (h := 1) v b) (hk : b.kids ≠ []) :
    Rejoined v v b b :=
  ⟨hb, rfl, hk, .refl _, .refl _, fun _ _ => rfl, rfl, rfl, id⟩

section Remove

variable {s s' : BTree Disk} {v : View} {key : BTreeKey} {m : Nat}

theorem goesFirst_of_idx {b : Branch Leaf} (h : (if b.goesFirst key then (0 : Int) else -1) = 0) :
    b.goesFirst key = true := by
  by_contra hg
  rw [if_neg hg] at h
  cases h

/-- The merge of the leaf of the search with its sibling. -/
theorem merge_rejoins (hs : Shows s v) {b : Branch Leaf} (hb : Stored (h := 1) v b)
    (hnodup : (pages (h := 1) b).Nodup) (hlink : Linked (leaves (h := 1) b)) (hk : b.kids ≠ [])
    (hend : ¬ JoinsEnd v.maxSize.toNat key b) {rest : List Crumb} {u : Unit}
    (hrun : BTree.merge (b.child key).pid ((b.pid, if b.goesFirst key then 0 else -1) :: rest) s = (.ok u, s'))
    (hfit : AllFit s') :
    ∃ v₁ b' root s₁, Shows s₁ v₁ ∧ Rejoined v v₁ b b' ∧
      BTree.mergeTail b.pid (node (h := 1) b') root rest s₁ = (.ok u, s') := by
  have hidx : (if b.goesFirst key then (0 : Int) else -1) = 0 ∨
      (if b.goesFirst key then (0 : Int) else -1) = -1 := by
    split
    · exact .inl rfl
    · exact .inr rfl
  obtain ⟨hl0, hln⟩ := hb.2.2 _ (Branch.child_mem key b)
  have hkeys : (node (h := 1) b).keys ≠ [] := by
    simpa [node, Branch.keys] using hk
  obtain ⟨v₁, parent', root, s₁, hmerge, hs₁, htail⟩ :=
    BTree.merge_leaf hs hb.1 hb.2.1 rfl hkeys hl0 hln rfl hidx hrun hfit
  rw [leaves_two] at hlink
  cases hmerge with
  | keep => exact ⟨v, b, root, s₁, hs₁, .refl hb hk, htail⟩
  | @left cs q sib hneg hcs hq hq0 hsib hss hsne hle =>
    -- the last leaf was joined with the one before it
    have hgo : b.goesFirst key = false := by
      cases hg : b.goesFirst key
      · rfl
      · rw [hg] at hneg
        cases hneg
    obtain ⟨ks, ⟨f, sep⟩, hks⟩ : ∃ ks x, b.kids = ks ++ [x] := ⟨_, _, (List.dropLast_append_getLast hk).symm⟩
    cases hcs
    have hqf : root = f.pid := by simpa [hks, Tree.pid] using hq.symm
    obtain ⟨-, hfn⟩ := hb.2.2 f (by simp [Branch.children, hks])
    rw [hqf, hfn] at hsib
    cases hsib
    rw [Branch.child_of_last hgo] at hle
    refine absurd (.inr ⟨hgo, ks, f, sep, hks, ?_, ?_⟩) hend
    · simpa [Leaf.node] using hsne
    · simpa [Leaf.node] using hle
  | @rightLast sib hzero hlast hq0 hsib hss hsne hle =>
    -- the last leaf was joined with the first one
    have hgo : b.goesFirst key = true := goesFirst_of_idx hzero
    obtain ⟨f, sep, ks, hks, hf⟩ := Branch.child_of_first hgo
    rw [hf] at hlast hsib hle
    rcases ks with _ | ⟨⟨g, s₂⟩, ks⟩
    · have hnext : f.next = b.last.pid := hlast
      obtain ⟨-, hn⟩ := hb.2.2 b.last (by simp [Branch.children])
      rw [show f.node.next = b.last.pid from hlast, hn] at hsib
      cases hsib
      refine absurd (.inl ⟨hgo, f, sep, hks, ?_, ?_⟩) hend
      · simpa [Leaf.node] using hsne
      · simpa [Leaf.node] using hle
    · rw [hks] at hlink
      simp only [List.map_cons, List.cons_append, Linked, List.isChain_cons_cons] at hlink
      have hg : g.pid = b.last.pid := hlink.1.symm.trans hlast
      rw [pages_two, hks] at hnodup
      simp [hg] at hnodup
  | @right sib hzero hlast hlen hq0 hsib hss hsne hle =>
    -- the first leaf got the records of the second one
    have hgo : b.goesFirst key = true := goesFirst_of_idx hzero
    obtain ⟨f, sep, ks, hks, hf⟩ := Branch.child_of_first hgo
    obtain ⟨pid, flags, next, kids, last⟩ := b
    obtain rfl : kids = (f, sep) :: ks := hks
    rcases ks with _ | ⟨⟨g, s₂⟩, ks⟩
    · exact absurd hlen (by simp [node, Branch.keys])
    · simp only [List.map_cons, List.cons_append, Linked, List.isChain_cons_cons] at hlink
      obtain ⟨-, hgn⟩ := hb.2.2 g (by simp [Branch.children])
      rw [hf] at hsib hs₁ htail
      rw [show f.node.next = g.pid from hlink.1, hgn] at hsib
      cases hsib
      have hjoin : ({ f.node.absorb g.node with next := g.node.next } : BTreePage) = (f.join g g.next).node :=
        (Leaf.node_join f g g.next).symm
      rw [hjoin] at hs₁
      have hmem : f.pid ∈ pages (h := 1) ⟨pid, flags, next, (f, sep) :: (g, s₂) :: ks, last⟩ := by
        simp [pages_two]
      refine ⟨_, ⟨pid, flags, next, (f.join g g.next, s₂) :: ks, last⟩, _, s₁, hs₁,
        ⟨hb.joinFirst hnodup, rfl, List.cons_ne_nil _ _, pages_joinFirst .., ?_, fun p hp => ?_, ?_⟩, htail⟩
      · rw [leaves_two, leaves_two]
        exact (Relinks.join f g).append [] (ks.map (·.1) ++ [last])
      · refine (View.put_node_ne _ _ ?_).trans (View.put_node_ne _ _ ?_)
        · rintro rfl
          exact hp (List.mem_cons_self ..)
        · rintro rfl
          exact hp hmem
      · exact (SameMeta.put v _ _).trans (SameMeta.put _ _ _)

/-- The two children of the root as one node. -/
def Branch.fuse {α : Type} (b : Branch α) (k : BTreeKey) (c : Branch α) : Branch α :=
  { b with kids := b.kids ++ [(b.last, k)] ++ c.kids, last := c.last }

theorem Branch.children_fuse {α : Type} (b c : Branch α) (k : BTreeKey) :
    (b.fuse k c).children = b.children ++ c.children := by
  simp [children, fuse]

theorem node_fuse {h : Nat} (b c : Branch (Tree h)) (k : BTreeKey) :
    node (h := h + 1) (b.fuse k c) = (node (h := h + 1) b).absorbInner k (node (h := h + 1) c) := by
  rw [BTreePage.absorbInner_eq (show (node (h := h + 1) b).values = .children (b.kids.map (·.1.pid)) from rfl)
    (show (node (h := h + 1) c).values = .children (c.kids.map (·.1.pid)) from rfl)]
  simp [node, Branch.fuse, Branch.keys]

/-- The merge of the two children of the root: the left one becomes the root. -/
theorem Held.fuse {v : View} {h : Nat} {pid next : PageId} {flags : UInt8} {b c : Branch (Tree h)} {k : BTreeKey}
    (ht : Held (h := h + 2) v ⟨pid, flags, next, [(b, k)], c⟩) (n : BTreePage) :
    Held (h := h + 1) (((v.put b.pid (node (h := h + 1) (b.fuse k c))).put pid n).collapse b.pid) (b.fuse k c) := by
  have hb : Stored (h := h + 1) v b := ht.stored.2.2 b (by simp [Branch.children])
  have hc : Stored (h := h + 1) v c := ht.stored.2.2 c (by simp [Branch.children])
  have hnodup := ht.nodup
  have hpages : pages (h := h + 2) ⟨pid, flags, next, [(b, k)], c⟩ =
      pid :: (b.pid :: b.children.flatMap pages ++ (c.pid :: c.children.flatMap pages)) := by
    simp [pages, Branch.children]
  have hfused : pages (h := h + 1) (b.fuse k c) =
      b.pid :: (b.children.flatMap pages ++ c.children.flatMap pages) := by
    show b.pid :: (b.fuse k c).children.flatMap pages = _
    rw [Branch.children_fuse, List.flatMap_append]
  rw [hpages] at hnodup
  have hsub : (pages (h := h + 1) (b.fuse k c)).Sublist
      (pid :: (b.pid :: b.children.flatMap pages ++ (c.pid :: c.children.flatMap pages))) := by
    rw [hfused]
    exact (((List.Sublist.refl _).append (List.sublist_cons_self ..)).cons_cons _).cons _
  simp only [List.cons_append, List.nodup_cons, List.mem_cons, List.mem_append, not_or] at hnodup
  obtain ⟨⟨hpid, hpb, -, hpc⟩, ⟨hbb, -, hbc⟩, -⟩ := hnodup
  -- a page below the two is neither of the pages that were written
  have hkept : ∀ q, q ≠ pid → q ≠ b.pid →
      (((v.put b.pid (node (h := h + 1) (b.fuse k c))).put pid n).collapse b.pid).node q = v.node q :=
    fun q h₁ h₂ => (View.put_node_ne _ _ h₁).trans (View.put_node_ne _ _ h₂)
  refine ⟨rfl, ⟨hb.1, ?_, fun d hd => ?_⟩, ht.nodup.sublist (hpages ▸ hsub)⟩
  · exact (View.put_node_ne _ _ (Ne.symm hpid)).trans (View.put_node_same ..)
  · rw [Branch.children_fuse, List.mem_append] at hd
    rcases hd with hd | hd
    · refine (hb.2.2 d hd).congr fun q hq => ?_
      have hmem := List.mem_flatMap.mpr ⟨d, hd, hq⟩
      exact hkept q (fun heq => hpb (heq ▸ hmem)) fun heq => hbb (heq ▸ hmem)
    · refine (hc.2.2 d hd).congr fun q hq => ?_
      have hmem := List.mem_flatMap.mpr ⟨d, hd, hq⟩
      exact hkept q (fun heq => hpc (heq ▸ hmem)) fun heq => hbc (heq ▸ hmem)

/-- The merge below the root of a tree of three levels: nothing changes, or the root goes. -/
theorem Held.mergeInner (hs : Shows s v) (htidy : v.Tidy) {t : Tree 2} (ht : Held v t) (hlow : Low t)
    (hc : Chained t.leaves)
    (hrun : BTree.merge (Branch.child key t).pid [(Branch.pid t, if Branch.goesFirst key t then 0 else -1)] s =
      (.ok (), s')) (hfit : AllFit s') :
    ∃ v', Shows s' v' ∧ v'.Tidy ∧ v'.maxSize = v.maxSize ∧ InChain v' := by
  obtain ⟨pid, flags, next, kids, last⟩ := t
  obtain ⟨⟨b, k⟩, rfl⟩ := List.length_eq_one_iff.mp (show kids.length = 1 from hlow)
  obtain ⟨h0, hn, hkids⟩ := ht.stored
  have hb : Stored (h := 1) v b := hkids b (by simp [Branch.children])
  obtain ⟨hl0, hln, -⟩ := hkids _ (Branch.child_mem key _)
  have hchild : ∀ q ∈ [b.pid], q ≠ 0 ∧ ∃ n, v.node q = some n ∧ n.isLeaf = false := by
    intro q hq
    rw [List.mem_singleton.mp hq]
    exact ⟨hb.1, _, hb.2.1, rfl⟩
  have hidx : (if Branch.goesFirst key (⟨pid, flags, next, [(b, k)], last⟩ : Tree 2) then (0 : Int) else -1) = 0 ∨
      (if Branch.goesFirst key (⟨pid, flags, next, [(b, k)], last⟩ : Tree 2) then (0 : Int) else -1) = -1 := by
    split
    · exact .inl rfl
    · exact .inr rfl
  obtain ⟨v₁, parent', root, s₁, hmerge, hs₁, htail⟩ := BTree.merge_inner hs h0 hn rfl
    (List.cons_ne_nil _ _) hchild hl0 hln rfl hidx hrun hfit
  cases hmerge with
  | keep =>
    rcases mergeTail_nil hs₁ htail with ⟨-, hs'⟩ | ⟨hnil, -⟩
    · exact ⟨v, hs', htidy, rfl, 2, _, ht, hlow, hc⟩
    · cases hnil
  | @left cs _ sib k' hneg hcs hq hq0 hsib hss hk hle =>
    have hgo : Branch.goesFirst key (⟨pid, flags, next, [(b, k)], last⟩ : Tree 2) = false := by
      cases hg : Branch.goesFirst key (⟨pid, flags, next, [(b, k)], last⟩ : Tree 2)
      · rfl
      · rw [hg] at hneg
        cases hneg
    cases hcs
    obtain rfl : b.pid = root := by simpa [Tree.pid] using hq
    obtain rfl : k = k' := by simpa [node, Branch.keys] using hk
    obtain rfl : node (h := 1) b = sib := Option.some.inj (hb.2.1.symm.trans hsib)
    rw [Branch.child_of_last hgo, ← node_fuse] at hs₁
    rcases mergeTail_nil hs₁ htail with ⟨hne, -⟩ | ⟨-, hs'⟩
    · exact absurd rfl hne
    · have hleaves : leaves (h := 2) ⟨pid, flags, next, [(b, k)], last⟩ = leaves (h := 1) (b.fuse k last) := by
        simp [leaves, Branch.children, Branch.fuse]
      rw [hleaves] at hc
      exact ⟨_, hs', ((htidy.put _ _).put _ _).collapse _, rfl, 1, _, ht.fuse _, trivial, hc⟩

/-- The leaf without its record at `i`. -/
def Leaf.dropAt (l : Leaf) (i : Nat) : Leaf := { l with records := l.records.eraseIdx i }

theorem Leaf.node_dropAt (l : Leaf) (i : Nat) : (l.dropAt i).node = l.node.dropRecord i := by
  rw [BTreePage.dropRecord_eq (show l.node.values = .records (l.records.map (·.2)) from rfl)]
  simp [Leaf.dropAt, Leaf.node, List.eraseIdx_map]

theorem linked_bottom {h : Nat} {t : Tree (h + 1)} (hl : Linked t.leaves) :
    Linked (leaves (h := 1) (bottom key t)) := by
  induction h with
  | zero => exact hl
  | succ h ih =>
    refine ih ?_
    have ht : t.leaves = (Branch.left key t).flatMap leaves ++ ((Branch.child key t).leaves ++
        (Branch.right key t).flatMap leaves) := by
      show (Branch.children t).flatMap leaves = _
      rw [Branch.children_eq key t, List.flatMap_append, List.flatMap_cons]
    rw [ht, Linked, List.isChain_append, List.isChain_append] at hl
    exact hl.2.1.1

theorem not_joinsEnd_branch (hs : Shows s v) {b : Branch Leaf} (hb : Stored (h := 1) v b)
    (hlink : Linked (leaves (h := 1) b)) {l : Leaf}
    (hlen : l.records.length = (b.child key).node.keys.length - 1)
    (hjoin : ((if b.goesFirst key then (0 : Int) else -1) != -1 &&
        (b.child key).node.next != (node (h := 1) b).rightmostPtr ||
      !(siblingOf (node (h := 1) b) (b.child key).node (if b.goesFirst key then 0 else -1)).any
        (joins s (b.child key).node)) = true) :
    ¬ JoinsEnd v.maxSize.toNat key (b.setChild key l) := by
  have hjoins : ∀ c ∈ b.children, c.records ≠ [] →
      (b.child key).node.keys.length - 1 + c.records.length ≤ v.maxSize.toNat →
      joins s (b.child key).node c.pid = true := by
    intro c hc hne hle
    obtain ⟨h0, hn⟩ := hb.2.2 c hc
    rw [joins, hs.node _ h0, hn, hs.maxSize]
    simpa [Leaf.node] using ⟨hne, by simpa [Leaf.node] using hle⟩
  rw [leaves_two] at hlink
  rintro (⟨hgo, f, sep, hks, hne, hle⟩ | ⟨hgo, ks, f, sep, hks, hne, hle⟩)
  · rw [Branch.goesFirst_setChild] at hgo
    obtain ⟨c, s', ks, hbk, hc⟩ := Branch.child_of_first hgo
    have hlt : BTreeKey.Lt key s' := by simpa [Branch.goesFirst, hbk] using hgo
    simp only [Branch.setChild, hbk, if_pos hlt, List.cons.injEq, Prod.mk.injEq] at hks hne hle
    obtain ⟨⟨rfl, -⟩, rfl⟩ := hks
    have hnext : c.next = b.last.pid := by
      rw [hbk] at hlink
      simpa [Linked] using hlink
    rw [hgo] at hjoin
    have hj := hjoins b.last (by simp [Branch.children]) hne (by rw [← hlen]; exact hle)
    have hright : (b.child key).node.next = (node (h := 1) b).rightmostPtr := by
      rw [hc]
      exact hnext
    have hsib : siblingOf (node (h := 1) b) (b.child key).node 0 = some b.last.pid := by
      rw [hc]
      simp [siblingOf, node, BTree.sibPid, Leaf.node, hnext, Except.toOption]
    simp [hsib, hright, hj] at hjoin
  · rw [Branch.goesFirst_setChild] at hgo
    rw [Branch.setChild_of_last hgo] at hks hle
    have hks' : b.kids = ks ++ [(f, sep)] := hks
    have hj := hjoins f (by simp [Branch.children, hks']) hne (by rw [← hlen]; exact hle)
    have hsib : siblingOf (node (h := 1) b) (b.child key).node (-1) = some f.pid := by
      have hlast := sibPid_last (f := f) (s := sep) ks (b.child key)
      rw [← hks'] at hlast
      show (BTree.sibPid (b.kids.map (·.1.pid)) _ _).toOption = _
      rw [hlast]
      rfl
    simp [hgo, hsib, hj] at hjoin

/-- The condition on a removal is about the branch above its leaf. -/
theorem not_joinsEnd (hs : Shows s v) {h : Nat} {t : Tree (h + 1)} (ht : Held v t) (hl : Linked t.leaves)
    (hpath : Path v key v.rootPid (route key t).pid (route key t).node (crumbs key t))
    (hkey : key ∈ (route key t).node.keys) (hjoin : joinsInChain s key = true) :
    ¬ JoinsEnd v.maxSize.toNat key (bottom key (Tree.setLeaf key t
      ((route key t).dropAt (BTree.keyIndex (route key t).node.keys key)))) := by
  have hlen : (crumbs key t).length < 2 ^ 32 := by
    rw [crumbs_length]
    exact ht.stored.height_lt
  have hstored := ht.stored.bottom key
  have hlink : Linked (leaves (h := 1) (bottom key t)) := linked_bottom hl
  have hdrop : ((route key t).dropAt (BTree.keyIndex (route key t).node.keys key)).records.length =
      (route key t).node.keys.length - 1 := by
    have hlt := keyIndex_lt.mpr hkey
    have hkl : (route key t).node.keys.length = (route key t).records.length := List.length_map ..
    rw [Leaf.dropAt, List.length_eraseIdx, if_pos (by rwa [← hkl]), hkl]
  obtain ⟨rest, hrest⟩ := crumbs_eq_cons key t
  obtain ⟨h0, hn⟩ := hstored.root
  have hnode : s.bpm.nodeAt (bottom key t).pid = some (node (h := 1) (bottom key t)) := (hs.node _ h0).trans hn
  rw [joinsInChain, findLeaf_of_path hs hpath hlen] at hjoin
  simp only [hrest, hnode, Option.all_some] at hjoin
  rw [route_eq_child] at hjoin hdrop ⊢
  rw [bottom_setLeaf]
  exact not_joinsEnd_branch hs hstored hlink hdrop hjoin

theorem pages_setChild_sublist {h : Nat} {b : Branch (Tree h)} {c : Tree h}
    (hc : c.pages.Sublist (b.child key).pages) :
    (pages (h := h + 1) (b.setChild key c)).Sublist (pages (h := h + 1) b) := by
  show ((b.setChild key c).pid :: (b.setChild key c).children.flatMap pages).Sublist
    (b.pid :: b.children.flatMap pages)
  rw [Branch.setChild_pid, Branch.children_setChild, Branch.children_eq key b]
  simp only [List.flatMap_append, List.flatMap_cons]
  exact ((List.Sublist.refl _).append (hc.append (.refl _))).cons_cons _

theorem bottom_kids_ne {h : Nat} {t : Tree (h + 1)} (hs : Stored v t)
    (hpath : Path v key v.rootPid (route key t).pid (route key t).node (crumbs key t)) :
    (bottom key t).kids ≠ [] := by
  obtain ⟨rest, hrest⟩ := crumbs_eq_cons key t
  rw [hrest] at hpath
  obtain ⟨-, n, hn, -, hkeys⟩ := hpath.crumb_spec _ (List.mem_cons_self ..)
  obtain rfl : node (h := 1) (bottom key t) = n := Option.some.inj ((hs.bottom key).root.2.symm.trans hn)
  intro hnil
  exact hkeys (by simp [node, Branch.keys, hnil])

/-- The merges after a removal, in a tree of two levels. -/
theorem Held.mergeTwo (hs : Shows s v) (htidy : v.Tidy) {b : Branch Leaf} (hb : Held (h := 1) v b)
    (hc : Chained (leaves (h := 1) b)) (hk : b.kids ≠ []) (hend : ¬ JoinsEnd v.maxSize.toNat key b)
    (hrun : BTree.merge (b.child key).pid [(b.pid, if b.goesFirst key then 0 else -1)] s = (.ok (), s'))
    (hfit : AllFit s') :
    ∃ v', Shows s' v' ∧ v'.Tidy ∧ v'.maxSize = v.maxSize ∧ InChain v' := by
  obtain ⟨v₁, b', root, s₁, hs₁, hr, htail⟩ := merge_rejoins hs hb.stored hb.nodup hc.1 hk hend hrun hfit
  rcases mergeTail_nil hs₁ htail with ⟨-, hs'⟩ | ⟨hnil, -⟩
  · have hroot : v₁.rootPid = b'.pid := hr.same.rootPid.trans (hb.root.trans hr.pid.symm)
    exact ⟨v₁, hs', hr.same.tidy htidy, hr.same.maxSize, 1, b', ⟨hroot, hr.stored, hb.nodup.sublist hr.pages⟩,
      trivial, hr.links.chained hc⟩
  · exact absurd hnil (by simpa [node, Branch.keys] using hr.kids)

/-- The merges after a removal, in a tree of three levels. -/
theorem Held.mergeThree (hs : Shows s v) (htidy : v.Tidy) {t : Tree 2} (ht : Held v t) (hlow : Low t)
    (hc : Chained t.leaves) (hk : (Branch.child key t).kids ≠ [])
    (hend : ¬ JoinsEnd v.maxSize.toNat key (Branch.child key t))
    (hrun : BTree.merge ((Branch.child key t).child key).pid
      [((Branch.child key t).pid, if (Branch.child key t).goesFirst key then 0 else -1),
        (Branch.pid t, if Branch.goesFirst key t then 0 else -1)] s = (.ok (), s')) (hfit : AllFit s') :
    ∃ v', Shows s' v' ∧ v'.Tidy ∧ v'.maxSize = v.maxSize ∧ InChain v' := by
  have hb : Stored (h := 1) v (Branch.child key t) := ht.stored.2.2 _ (Branch.child_mem key t)
  obtain ⟨-, hnodup, -⟩ := nodup_branch ht.nodup key
  have hlink : Linked (leaves (h := 1) (Branch.child key t)) := linked_bottom (h := 1) hc.1
  obtain ⟨v₁, b', root, s₁, hs₁, hr, htail⟩ := merge_rejoins hs hb hnodup hlink hk hend hrun hfit
  -- the tree with the merged branch in it
  have hstored : Stored v₁ (h := 2) (Branch.setChild key t b') :=
    ht.stored.setChild ht.nodup hr.stored hr.pid fun p _ hp => hr.others p hp
  have hroot : v₁.rootPid = (Branch.setChild key t b').pid := by
    rw [Branch.setChild_pid]
    exact hr.same.rootPid.trans ht.root
  have ht₁ : Held (h := 2) v₁ (Branch.setChild key t b') :=
    ⟨hroot, hstored, ht.nodup.sublist (pages_setChild_sublist hr.pages)⟩
  have hlow₁ : Low (h := 2) (Branch.setChild key t b') := (kids_length_setChild key t b').trans hlow
  have hc₁ : Chained (leaves (h := 2) (Branch.setChild key t b')) := (relinks_setChild hr.links).chained hc
  have hrun₁ : BTree.merge (Branch.child key (Branch.setChild key t b')).pid
      [(Branch.pid (Branch.setChild key t b'), if Branch.goesFirst key (Branch.setChild key t b') then 0 else -1)] s₁ =
        (.ok (), s') := by
    have hpid : Tree.pid (h := 1) b' = (Branch.child key t).pid := hr.pid
    rw [Branch.child_setChild, Branch.setChild_pid, Branch.goesFirst_setChild, hpid]
    exact htail
  obtain ⟨v', hs', htidy', hmax, hin⟩ := ht₁.mergeInner hs₁ (hr.same.tidy htidy) hlow₁ hc₁ hrun₁ hfit
  exact ⟨v', hs', htidy', hmax.trans hr.same.maxSize, hin⟩

/-- A removal keeps the leaves chained. -/
theorem Held.remove_inChain (hs : Shows s v) (htidy : v.Tidy) {h : Nat} {t : Tree h} (ht : Held v t)
    (hlow : Low t) (hc : Chained t.leaves)
    (hpath : Path v key v.rootPid (route key t).pid (route key t).node (crumbs key t))
    (hjoin : joinsInChain s key = true) (hrun : BTree.remove key s = (.ok (), s')) (hfit : AllFit s') :
    ∃ v', Shows s' v' ∧ v'.Tidy ∧ v'.maxSize = v.maxSize ∧ InChain v' := by
  have hlen : (crumbs key t).length < 2 ^ 32 := by
    rw [crumbs_length]
    exact ht.stored.height_lt
  obtain ⟨hkey, s₁, hs₁, htail⟩ := remove_eq_ok hs hpath hlen hrun hfit
  rw [← Leaf.node_dropAt] at hs₁
  generalize hl : (route key t).dropAt (BTree.keyIndex (route key t).node.keys key) = l at hs₁
  have hpid : l.pid = (route key t).pid := by rw [← hl]; rfl
  have hpid' : Tree.pid (h := 0) l = (route key t).pid := hpid
  have hnext : l.next = (route key t).next := by rw [← hl]; rfl
  have ht₁ := ht.setLeaf hpid
  rw [hpid] at ht₁
  have hlow₁ : Low (Tree.setLeaf key t l) := hlow.setLeaf l
  have hc₁ := (relinks_setLeaf hpid hnext).chained hc
  have htidy₁ := htidy.put (route key t).pid l.node
  match h, t, hlow with
  | 0, t, _ =>
    cases htail
    exact ⟨_, hs₁, htidy₁, rfl, 0, _, ht₁, hlow₁, hc₁⟩
  | 1, t, _ =>
    have hend := not_joinsEnd hs ht hc.1 hpath hkey hjoin
    rw [hl] at hend
    have hkids : (Branch.setChild key t l).kids ≠ [] := by
      have hne := bottom_kids_ne ht.stored hpath
      rwa [← List.length_pos_iff, kids_length_setChild (h := 0), List.length_pos_iff]
    have hrun₁ : BTree.merge (Branch.child key (Branch.setChild key t l)).pid
        [(Branch.pid (Branch.setChild key t l), if Branch.goesFirst key (Branch.setChild key t l) then 0 else -1)] s₁ =
          (.ok (), s') := by
      rw [Branch.child_setChild, Branch.setChild_pid, Branch.goesFirst_setChild, hpid']
      exact htail
    exact Held.mergeTwo (v := v.put (route key t).pid l.node) hs₁ htidy₁ ht₁ hc₁ hkids hend hrun₁ hfit
  | 2, t, hlow =>
    have hend := not_joinsEnd hs ht hc.1 hpath hkey hjoin
    rw [hl, bottom_setLeaf] at hend
    have hkids : ((Branch.child key t).setChild key l).kids ≠ [] := by
      have hne := bottom_kids_ne ht.stored hpath
      rwa [← List.length_pos_iff, kids_length_setChild (h := 0), List.length_pos_iff]
    have hchild : Branch.child key (Tree.setLeaf (h := 2) key t l) = (Branch.child key t).setChild key l :=
      Branch.child_setChild ..
    have hrun₁ : BTree.merge (Branch.child key (Branch.child key (Tree.setLeaf (h := 2) key t l))).pid
        [((Branch.child key (Tree.setLeaf (h := 2) key t l)).pid,
            if (Branch.child key (Tree.setLeaf (h := 2) key t l)).goesFirst key then 0 else -1),
          (Tree.pid (Tree.setLeaf (h := 2) key t l),
            if Branch.goesFirst key (Tree.setLeaf (h := 2) key t l) then 0 else -1)] s₁ = (.ok (), s') := by
      have hroot : Tree.pid (Tree.setLeaf (h := 2) key t l) = t.pid := Branch.setChild_pid ..
      have hside : Branch.goesFirst key (Tree.setLeaf (h := 2) key t l) = Branch.goesFirst key t :=
        Branch.goesFirst_setChild ..
      have habove : Tree.pid (h := 1) ((Branch.child key t).setChild key l) = (Branch.child key t).pid :=
        Branch.setChild_pid ..
      rw [hroot, hside, hchild, Branch.child_setChild, habove, Branch.goesFirst_setChild, hpid']
      exact htail
    rw [← hchild] at hkids
    have hend₁ : ¬ JoinsEnd v.maxSize.toNat key (Branch.child key (Tree.setLeaf (h := 2) key t l)) := by
      rwa [hchild]
    exact Held.mergeThree (v := v.put (route key t).pid l.node) hs₁ htidy₁ ht₁ hlow₁ hc₁ hkids hend₁ hrun₁ hfit

end Remove

/-! ## Runs -/

/-- A regular call that splits a leaf and joins leaves only where the chain is kept. -/
def KeepsChain (t : BTree Disk) (op : IndexOp) : Prop :=
  CallRegular t op ∧ match op with
    | .insert key _ => t.rootPid ≠ 0 → splitsInChain t key = true
    | .remove key => joinsInChain t key = true

instance (t : BTree Disk) : ∀ op, Decidable (KeepsChain t op)
  | .insert _ _ => inferInstanceAs (Decidable (_ ∧ _))
  | .remove _ => inferInstanceAs (Decidable (_ ∧ _))

section Calls

variable {s s' : BTree Disk} {v : View} {op : IndexOp}

theorem InChain.call (h : InChain v) (hs : Shows s v) (htidy : v.Tidy) (hm : 2 ≤ v.maxSize.toNat)
    (hop : KeepsChain s op) (hrun : op.run s = (.ok (), s')) :
    ∃ v', Shows s' v' ∧ v'.Tidy ∧ v'.maxSize = v.maxSize ∧ InChain v' := by
  obtain ⟨n, t, ht, hlow, hc⟩ := h
  have hroot : v.rootPid ≠ 0 := ht.root ▸ ht.stored.root.1
  have hroute : ∀ {key p leaf cs}, Path v key v.rootPid p leaf cs →
      Path v key v.rootPid (route key t).pid (route key t).node (crumbs key t) := by
    intro key p leaf cs hpath
    have hpath' := ht.root ▸ hpath
    obtain ⟨rfl, rfl, rfl⟩ := ht.stored.route_of_path hpath'
    exact hpath
  cases op with
  | insert key val =>
    obtain ⟨⟨⟨hkey, hfit⟩, hsafe⟩, hsplit⟩ := hop
    obtain ⟨r, s₁, hins, hret⟩ := Prog.bind_eq_ok hrun
    cases hret
    obtain ⟨hin, hover⟩ := hsafe (hs.rootPid ▸ hroot)
    obtain ⟨p, leaf, cs, hfound⟩ := path_of_insert hs hroot hins hin
    have hpath := hroute hfound
    have hlen : (crumbs key t).length < 2 ^ 32 := by
      rw [crumbs_length]
      exact ht.stored.height_lt
    rw [hins] at hfit
    exact ht.insert_inChain hs htidy hm hlow hc hpath hkey (noInnerOverflow_of hs hpath hlen hover)
      (hsplit (hs.rootPid ▸ hroot)) hins hfit
  | remove key =>
    obtain ⟨⟨hfit, hin⟩, hjoin⟩ := hop
    obtain ⟨p, leaf, cs, hfound⟩ := path_of_remove hs hrun hin
    exact ht.remove_inChain hs htidy hlow hc (hroute hfound) hjoin hrun (hfit.remove hrun)

/-- The first call makes the root, a leaf with no next one. -/
theorem fresh_inChain {m : UInt8} (hm : 2 ≤ m.toNat) (hs : Shows s (.fresh m)) (hop : KeepsChain s op)
    (hrun : op.run s = (.ok (), s')) :
    ∃ v', Shows s' v' ∧ v'.Tidy ∧ v'.maxSize = m ∧ InChain v' := by
  cases op with
  | insert key val =>
    obtain ⟨⟨⟨hkey, hfit⟩, -⟩, -⟩ := hop
    obtain ⟨r, s₂, hins, hret⟩ := Prog.bind_eq_ok hrun
    cases hret
    have hcount : (View.fresh m).diskCount.toNat + 1 < 65536 := by simp [View.fresh]
    have hid : (View.fresh m).newId ≠ 0 := View.newId_ne_zero hcount
    obtain ⟨s₁, hr₁, hs₁⟩ := createRoot_ok hs rfl hid
    have hrun₁ := insert_createRoot hr₁ hs₁ hid key val
    rw [hins] at hfit
    have hleaf : (View.fresh m).createRoot.node (View.fresh m).newId = some View.emptyLeaf := by
      simp [View.createRoot, View.addPage]
    have hpath : Path (View.fresh m).createRoot key (View.fresh m).newId (View.fresh m).newId View.emptyLeaf [] :=
      .leaf hid hleaf rfl
    have hroom : overfills s₁ key View.emptyLeaf = false := by
      rw [overfills, hs₁.maxSize]
      simpa [View.emptyLeaf, View.createRoot, View.addPage, View.fresh] using by omega
    have hsplit : splitsInChain s₁ key = true := by
      rw [splitsInChain, findLeaf_of_path hs₁ hpath (by simp)]
      simp [hroom]
    exact (held_newLeaf hid hleaf).insert_inChain hs₁ ((View.fresh_tidy m).createRoot hcount) hm trivial
      ⟨List.isChain_singleton _, by rintro _ ⟨⟩; rfl⟩ hpath hkey (fun _ => trivial) hsplit
      (hrun₁.symm.trans hins) hfit
  | remove key =>
    obtain ⟨⟨-, hin⟩, -⟩ := hop
    obtain ⟨p, leaf, cs, hpath⟩ := path_of_remove hs hrun hin
    exact absurd rfl hpath.start.1

end Calls

/-- **The leaf chain lists the leaves.** After a run of such calls on a fresh index, following `next` from the
leftmost leaf visits the leaves below the root in their order, and the last leaf names no other. -/
theorem leaf_chain_lists_leaves (m : UInt8) (hm : 2 ≤ m.toNat) (junk : BTree Disk) {ops : List IndexOp}
    {us : List Unit} {t : BTree Disk} (hops : Prog.Meets IndexOp.run KeepsChain ops (BTree.opened m junk))
    (hrun : Prog.runAll IndexOp.run ops (BTree.opened m junk) = (.ok us, t)) :
    ChainListsLeaves t.bpm t.rootPid := by
  obtain ⟨v, hs, hinv⟩ : ∃ v, Shows t v ∧ (v = .fresh m ∨ v.Tidy ∧ v.maxSize = m ∧ InChain v) := by
    refine Prog.runAll_inv_of_ok
      (fun _ t => ∃ v, Shows t v ∧ (v = .fresh m ∨ v.Tidy ∧ v.maxSize = m ∧ InChain v)) ?_
      ⟨.fresh m, Shows.opened_fresh m junk, .inl rfl⟩ hops hrun
    rintro - s op ⟨⟩ s' ⟨v, hs, rfl | ⟨htidy, rfl, hc⟩⟩ hop hstep
    · obtain ⟨v', hs', h'⟩ := fresh_inChain hm hs hop hstep
      exact ⟨v', hs', .inr h'⟩
    · obtain ⟨v', hs', h'⟩ := hc.call hs htidy hm hop hstep
      exact ⟨v', hs', .inr h'⟩
  rcases hinv with rfl | ⟨-, -, h, tree, ht, -, hc⟩
  · exact .inl hs.rootPid
  · exact ht.chainListsLeaves hs hc

/-- Insertions that split the root and the last leaf, and a removal that joins the first two leaves. -/
def chainOps : List IndexOp :=
  [.insert (byteKey 65) ⟨1, 0⟩, .insert (byteKey 66) ⟨2, 0⟩, .insert (byteKey 67) ⟨3, 0⟩,
    .insert (byteKey 68) ⟨4, 0⟩, .remove (byteKey 65)]

set_option maxRecDepth 4096 in
theorem leaf_chain_lists_two_leaves : ∃ us t,
    Prog.runAll IndexOp.run chainOps (BTree.opened 2 .zeroMemory) = (.ok us, t) ∧
      ChainListsLeaves t.bpm t.rootPid := by
  obtain ⟨us, hrun⟩ := Prog.eq_ok_of_isOk (m := Prog.runAll IndexOp.run chainOps)
    (s := BTree.opened 2 .zeroMemory) (by decide +kernel)
  exact ⟨us, _, hrun, leaf_chain_lists_leaves 2 (by decide) .zeroMemory (by decide +kernel) hrun⟩

/-- Memory in which the pointer to the next leaf is 7. -/
def usedMemory : BTree Disk := { BTree.zeroMemory with heap := fun _ => ⟨0, 0, 7, Block.zero⟩ }

set_option maxRecDepth 4096 in
/-- Three insertions split the root, and the last leaf names page 7, which is no leaf. -/
theorem leaf_chain_ends_nowhere : ∃ us t,
    Prog.runAll IndexOp.run (chainOps.take 3) (BTree.opened 2 usedMemory) = (.ok us, t) ∧
      ¬ ChainListsLeaves t.bpm t.rootPid := by
  obtain ⟨us, hrun⟩ := Prog.eq_ok_of_isOk (m := Prog.runAll IndexOp.run (chainOps.take 3))
    (s := BTree.opened 2 usedMemory) (by decide +kernel)
  refine ⟨us, _, hrun, ?_⟩
  have hroot : (Prog.runAll IndexOp.run (chainOps.take 3) (BTree.opened 2 usedMemory)).2.rootPid ≠ 0 := by
    decide +kernel
  have hleaves : leafPages (Prog.runAll IndexOp.run (chainOps.take 3) (BTree.opened 2 usedMemory)).2.bpm (2 ^ 32)
      (Prog.runAll IndexOp.run (chainOps.take 3) (BTree.opened 2 usedMemory)).2.rootPid = some [1, 2] := by
    decide +kernel
  have hnext : followNext (Prog.runAll IndexOp.run (chainOps.take 3) (BTree.opened 2 usedMemory)).2.bpm (2 ^ 32) 1 =
      none := by
    decide +kernel
  rintro (h0 | ⟨p, ps, hl, hf⟩)
  · exact hroot h0
  · rw [hleaves] at hl
    cases hl
    rw [hnext] at hf
    cases hf

end SomeDB
