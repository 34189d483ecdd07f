import SomeDB.Index.LeafJoin
import SomeDB.Index.MergeRun
import SomeDB.Index.Reading

/-!
# The merges from a leaf up to the root

After a removal `merge` goes up from the leaf, level by level. At the lowest level it joins the leaf with its
neighbour (`Branch.neighbour`) or keeps the two, above that it keeps two inner nodes or fuses them. `Settles` says
that below the root all goes well: no leaf is joined whose parent has one key, and no two inner nodes are fused.

* `climb_settles`: then the tree is stored again with all its records, and `merge` goes on with the level above.
* `climb_wrecks`: if not, a merge that returned has lost records.
-/

namespace SomeDB

open Lib SomeDB.Tree

namespace Branch

variable {α : Type} {key : BTreeKey}

/-- The child that `merge` takes for the sibling of the one that the search goes to: the one after the first, or the
one before the last. -/
def neighbour (key : BTreeKey) (b : Branch α) : α :=
  if b.goesFirst key then b.children[1]?.getD b.last else (b.kids.getLast?.map (·.1)).getD b.last

theorem neighbour_mem (key : BTreeKey) {b : Branch α} (hk : b.kids ≠ []) :
    b.neighbour key ∈ b.left key ∨ b.neighbour key ∈ b.right key := by
  cases hg : b.goesFirst key with
  | true =>
    obtain ⟨c, s, ks, hks, -⟩ := child_of_first hg
    refine .inr ?_
    rw [right, hg, neighbour, hg]
    rcases ks with _ | ⟨⟨d, s₂⟩, ks⟩ <;> simp [children, hks]
  | false =>
    refine .inl ?_
    rw [left, hg, neighbour, hg, List.getLast?_eq_getLast_of_ne_nil hk]
    simpa using ⟨_, List.getLast_mem hk⟩

theorem neighbour_first {pid next : PageId} {flags : UInt8} {f g last : α} {sep s₂ : BTreeKey}
    {ks : List (α × BTreeKey)} (hg : goesFirst key ⟨pid, flags, next, (f, sep) :: (g, s₂) :: ks, last⟩ = true) :
    neighbour key ⟨pid, flags, next, (f, sep) :: (g, s₂) :: ks, last⟩ = g := by
  simp [neighbour, hg, children]

theorem neighbour_onlyFirst {pid next : PageId} {flags : UInt8} {f last : α} {sep : BTreeKey}
    (hg : goesFirst key ⟨pid, flags, next, [(f, sep)], last⟩ = true) :
    neighbour key ⟨pid, flags, next, [(f, sep)], last⟩ = last := by
  simp [neighbour, hg, children]

theorem neighbour_onlyLast {pid next : PageId} {flags : UInt8} {f last : α} {sep : BTreeKey}
    (hg : goesFirst key ⟨pid, flags, next, [(f, sep)], last⟩ = false) :
    neighbour key ⟨pid, flags, next, [(f, sep)], last⟩ = f := by
  simp [neighbour, hg]

theorem neighbour_last {pid next : PageId} {flags : UInt8} {f last : α} {sep : BTreeKey} {ks : List (α × BTreeKey)}
    (hg : goesFirst key ⟨pid, flags, next, ks ++ [(f, sep)], last⟩ = false) :
    neighbour key ⟨pid, flags, next, ks ++ [(f, sep)], last⟩ = f := by
  simp [neighbour, hg]

theorem side_mem {b : Branch α} {c : α} (hc : c ∈ b.left key ∨ c ∈ b.right key) : c ∈ b.children := by
  rw [children_eq key b]
  simpa using hc.elim .inl (.inr ∘ .inr)

end Branch

namespace Tree

/-- Each node names the one to its right below the same parent. -/
def Siblings : {h : Nat} → Tree h → Prop
  | 0, _ => True
  | _ + 1, b => (Branch.children b).IsChain (fun c d => c.node.next = d.pid) ∧ ∀ c ∈ Branch.children b, Siblings c

/-- Every node fits in a page. -/
def Fits : {h : Nat} → Tree h → Prop
  | 0, l => (Leaf.node l).FitsPage
  | h + 1, b => (node (h := h + 1) b).FitsPage ∧ ∀ c ∈ Branch.children b, Fits c

theorem Fits.root {h : Nat} {t : Tree h} (hf : Fits t) : t.node.FitsPage := by
  cases h with
  | zero => exact hf
  | succ h => exact hf.1

/-! ## What the merges do -/

/-- The leaf of the search below `b` is joined with its neighbour, as it has records and the two have no more than
`m`. -/
def Joins (m : Nat) (key : BTreeKey) (b : Branch Leaf) : Prop :=
  (b.neighbour key).records ≠ [] ∧ (b.child key).records.length + (b.neighbour key).records.length ≤ m

instance (m : Nat) (key : BTreeKey) (b : Branch Leaf) : Decidable (Joins m key b) :=
  inferInstanceAs (Decidable (_ ∧ _))

/-- The joined leaf fits in a page. -/
def JoinFits (key : BTreeKey) (b : Branch Leaf) : Prop :=
  nodeSize true ((b.child key).node.keys ++ (b.neighbour key).node.keys) ≤ 4096

/-- The keys that the root of a tree is left with by the merges below it. -/
def keptKeys (m : Nat) (key : BTreeKey) : {h : Nat} → Tree (h + 1) → List BTreeKey
  | 0, b => if Joins m key b then (if Branch.goesFirst key b then (Branch.keys b).tail else (Branch.keys b).dropLast)
    else Branch.keys b
  | _ + 1, b => Branch.keys b

/-- The child that the search goes to and its neighbour have too many children to be fused. -/
def StaysApart (m : Nat) (key : BTreeKey) {h : Nat} (b : Branch (Tree (h + 1))) : Prop :=
  m + 1 < (keptKeys m key (b.child key)).length + 1 + (Branch.kids (b.neighbour key)).length + 1

/-- Below the root: a leaf is joined only if its parent has two keys, and no inner nodes are fused. -/
def Settles (m : Nat) (key : BTreeKey) : {h : Nat} → Tree (h + 1) → Prop
  | 0, b => Joins m key b → 2 ≤ (Branch.kids b).length ∧ JoinFits key b
  | _ + 1, b => Settles m key (Branch.child key b) ∧ StaysApart m key b

/-- What the merges rely on in a tree. -/
structure Ready (v : View) {h : Nat} (t : Tree h) : Prop where
  stored : Stored v t
  nodup : t.pages.Nodup
  keyed : Keyed t
  siblings : Siblings t
  fits : Fits t

/-- The tree `t'` was stored in place of `t`, with the same records. -/
structure Rebuilt (v v' : View) {h : Nat} (t t' : Tree h) : Prop where
  stored : Stored v' t'
  pid : t'.pid = t.pid
  next : t'.node.next = t.node.next
  pages : t'.pages.Sublist t.pages
  others : ∀ p ∉ t.pages, v'.node p = v.node p
  same : SameMeta v v'
  records : t'.records = t.records

variable {v v' : View} {h : Nat} {key : BTreeKey} {m : Nat}

theorem Ready.child {b : Branch (Tree h)} (hb : Ready v (h := h + 1) b) (key : BTreeKey) : Ready v (b.child key) :=
  have hmem := Branch.child_mem key b
  ⟨hb.stored.2.2 _ hmem, (nodup_branch hb.nodup key).2.1, hb.keyed.2.2 _ hmem, hb.siblings.2 _ hmem, hb.fits.2 _ hmem⟩

theorem Ready.kids_ne {b : Branch (Tree h)} (hb : Ready v (h := h + 1) b) : b.kids ≠ [] := hb.keyed.1

/-- The other children stay stored when only pages of the one that the search goes to are written. -/
theorem Ready.sides {b : Branch (Tree h)} (hb : Ready v (h := h + 1) b)
    (hothers : ∀ p ∉ (b.child key).pages, v'.node p = v.node p) :
    ∀ c, c ∈ b.left key ∨ c ∈ b.right key → Stored v' c := fun c hc =>
  (hb.stored.2.2 c (Branch.side_mem hc)).congr fun p hp => hothers p ((nodup_branch hb.nodup key).2.2 c hc p hp)

/-- So does the branch. -/
theorem Ready.node {b : Branch (Tree h)} (hb : Ready v (h := h + 1) b)
    (hothers : ∀ p ∉ (b.child key).pages, v'.node p = v.node p) :
    v'.node b.pid = some (Tree.node (h := h + 1) b) :=
  (hothers _ (nodup_branch hb.nodup key).1).trans hb.stored.2.1

theorem pages_child_subset {b : Branch (Tree h)} {c : Tree h} (hc : c ∈ b.children) :
    ∀ q ∈ c.pages, q ∈ pages (h := h + 1) b := fun _ hq =>
  List.mem_cons_of_mem _ (List.mem_flatMap.mpr ⟨c, hc, hq⟩)

theorem Rebuilt.refl {t : Tree h} (ht : Stored v t) : Rebuilt v v t t :=
  ⟨ht, rfl, rfl, .refl _, fun _ _ => rfl, ⟨rfl, rfl, id⟩, rfl⟩

/-- The child that the search goes to is rebuilt, and with it the tree. -/
theorem Rebuilt.setChild {b : Branch (Tree h)} (hb : Ready v (h := h + 1) b) {c : Tree h}
    (hc : Rebuilt v v' (b.child key) c) : Rebuilt v v' (h := h + 1) b (b.setChild key c) := by
  refine ⟨hb.stored.setChild hb.nodup hc.stored hc.pid fun p _ hp => hc.others p hp, Branch.setChild_pid .., ?_,
    pages_setChild_sublist hc.pages, fun p hp => hc.others p fun hmem => hp ?_, hc.same, ?_⟩
  · exact congrArg BTreePage.next (node_setChild key b hc.pid)
  · exact pages_child_subset (Branch.child_mem key b) p hmem
  · rw [records_branch, records_branch, Branch.children_setChild, Branch.children_eq key b]
    simp only [List.flatMap_append, List.flatMap_cons, hc.records]

/-- The sibling that `merge` chooses. -/
theorem sibPid_neighbour {b : Branch (Tree h)} (hk : b.kids ≠ []) (hs : Siblings (h := h + 1) b) {n : BTreePage}
    (hn : n.next = (b.child key).node.next) :
    BTree.sibPid (b.kids.map (·.1.pid)) n ((if b.goesFirst key then (0 : Int) else -1) = -1) =
      .ok (b.neighbour key).pid := by
  cases hg : b.goesFirst key with
  | true =>
    obtain ⟨c, s, ks, hks, hc⟩ := Branch.child_of_first hg
    have hlink := hs.1
    rw [hc] at hn
    rw [Branch.neighbour, hg]
    rcases ks with _ | ⟨⟨d, s₂⟩, ks⟩
    · simp only [Branch.children, hks, List.map_cons, List.map_nil, List.cons_append, List.nil_append,
        List.isChain_cons_cons] at hlink
      simp [BTree.sibPid, Branch.children, hks, hn, hlink.1]
    · simp only [Branch.children, hks, List.map_cons, List.cons_append, List.isChain_cons_cons] at hlink
      simp [BTree.sibPid, Branch.children, hks, hn, hlink.1]
  | false =>
    obtain ⟨ks, ⟨c, s⟩, hks⟩ : ∃ ks x, b.kids = ks ++ [x] := ⟨_, _, (List.dropLast_append_getLast hk).symm⟩
    rw [Branch.neighbour, hg, hks, BTree.sibPid, if_pos (by decide)]
    exact vecAt_eq (by simp)

end Tree

/-- The pages outside `ps` keep their nodes when two of `ps` are written. -/
theorem put_put_node {v : View} {ps : List PageId} {p q c : PageId} (hp : p ∉ ps) (hq : q ∈ ps) (hc : c ∈ ps)
    (n m : BTreePage) : ((v.put q n).put c m).node p = v.node p := by
  refine (View.put_node_ne _ _ ?_).trans (View.put_node_ne _ _ ?_)
  · rintro rfl
    exact hp hc
  · rintro rfl
    exact hp hq

section Climb

variable {s s' : BTree Disk} {v v' : View} {key : BTreeKey} {h : Nat}

/-! ## The lowest level -/

/-- The leaf and its neighbour are kept. -/
theorem merge_keepsLeaves (hs : ShowsFit s v) {b : Branch Leaf} (hb : Ready v (h := 1) b)
    (hnot : ¬ Joins v.maxSize.toNat key b) (rest : List Crumb) :
    ∃ root s₁, ShowsFit s₁ v ∧
      BTree.merge (b.child key).pid ((b.pid, if b.goesFirst key then 0 else -1) :: rest) s =
        BTree.mergeTail b.pid (node (h := 1) b) root rest s₁ := by
  have hk : b.kids ≠ [] := hb.keyed.1
  have hnb := hb.stored.2.2 _ (Branch.side_mem (Branch.neighbour_mem key hk))
  have hl := hb.stored.2.2 _ (Branch.child_mem key b)
  have hkeep : (b.neighbour key).node.keys.length = 0 ∨
      (b.child key).node.keys.length + (b.neighbour key).node.keys.length > v.maxSize.toNat := by
    rw [Joins, not_and_or, not_not, Nat.not_le] at hnot
    simpa [Leaf.node] using hnot
  obtain ⟨root, s₁, hrun, hs₁⟩ := BTree.merge_leaf_keep_fit hs hb.stored.1 hb.stored.2.1 rfl
    hb.fits.root hl.1 hl.2 (sibPid_neighbour hk hb.siblings rfl) hnb.1 hnb.2 rfl rfl hkeep rest
  exact ⟨root, s₁, hs₁, hrun⟩

/-- A leaf with the keys of two others fits in a page if their keys do. -/
theorem fitsPage_absorb {l r : Leaf} :
    (l.node.absorb r.node).FitsPage ↔ nodeSize true (l.node.keys ++ r.node.keys) ≤ 4096 := by
  rw [fitsPage_iff, BTreePage.absorb_isLeaf rfl, BTreePage.absorb_eq
    (show l.node.values = .records (l.records.map (·.2)) from rfl)
    (show r.node.values = .records (r.records.map (·.2)) from rfl)]

/-- The order of the keys does not matter. -/
theorem nodeSize_append_comm (b : Bool) (ks ks' : List BTreeKey) : nodeSize b (ks ++ ks') = nodeSize b (ks' ++ ks) := by
  simp [nodeSize, Nat.add_comm]

section Join

variable {pid next : PageId} {flags : UInt8} {f g last : Leaf} {sep s₂ : BTreeKey} {ks : List (Leaf × BTreeKey)}

theorem Tree.Ready.next_first (hb : Ready v (h := 1) ⟨pid, flags, next, (f, sep) :: (g, s₂) :: ks, last⟩) :
    f.node.next = g.pid := by
  have hlinked := hb.siblings.1
  simp only [Branch.children, List.map_cons, List.cons_append, List.isChain_cons_cons] at hlinked
  exact hlinked.1

theorem Tree.Ready.pid_ne_last (hb : Ready v (h := 1) ⟨pid, flags, next, (f, sep) :: (g, s₂) :: ks, last⟩) :
    g.pid ≠ last.pid := by
  have hnodup := hb.nodup
  rw [pages_two] at hnodup
  simp only [List.map_cons, List.cons_append, List.nodup_cons, List.mem_cons, List.mem_append,
    List.not_mem_nil, or_false, not_or] at hnodup
  exact hnodup.2.2.1.2

/-- The first leaf gets the records of the second one. -/
theorem merge_joinsFirst (hs : ShowsFit s v) (hb : Ready v (h := 1) ⟨pid, flags, next, (f, sep) :: (g, s₂) :: ks, last⟩)
    (hne : g.records ≠ []) (hle : f.records.length + g.records.length ≤ v.maxSize.toNat)
    (hfit : nodeSize true (f.node.keys ++ g.node.keys) ≤ 4096) (rest : List Crumb) :
    ∃ v₁ s₁, ShowsFit s₁ v₁ ∧
      Rebuilt v v₁ (h := 1) ⟨pid, flags, next, (f, sep) :: (g, s₂) :: ks, last⟩
        ⟨pid, flags, next, (f.join g g.next, s₂) :: ks, last⟩ ∧
      BTree.merge f.pid ((pid, 0) :: rest) s =
        BTree.mergeTail pid (node (h := 1) ⟨pid, flags, next, (f.join g g.next, s₂) :: ks, last⟩) f.pid rest s₁ := by
  obtain ⟨hf0, hfn⟩ := hb.stored.2.2 f (by simp [Branch.children])
  obtain ⟨hg0, hgn⟩ := hb.stored.2.2 g (by simp [Branch.children])
  obtain ⟨s₁, hrun, hs₁⟩ := BTree.merge_leaf_right_fit hs hb.stored.1 hb.stored.2.1 rfl hb.fits.root hf0
    hfn hg0 hgn rfl rfl (by simpa [Leaf.node] using hne) (by simpa [Leaf.node] using hle) rfl hb.next_first
    hb.pid_ne_last
    (by simp [node, Branch.keys]) (fitsPage_absorb.mpr hfit) rest
  have hroot : (node (h := 1) ⟨pid, flags, next, (f, sep) :: (g, s₂) :: ks, last⟩).popFirst f.pid =
      node (h := 1) ⟨pid, flags, next, (f.join g g.next, s₂) :: ks, last⟩ := rfl
  have hjoin : ({ f.node.absorb g.node with next := g.node.next } : BTreePage) = (f.join g g.next).node :=
    (Leaf.node_join f g g.next).symm
  rw [hroot] at hrun hs₁
  rw [hjoin] at hs₁
  exact ⟨_, s₁, hs₁, ⟨hb.stored.joinFirst hb.nodup, rfl, rfl, pages_joinFirst .., fun p hp => put_put_node hp
    (by simp [pages_two]) (by simp [pages_two]) _ _, (SameMeta.put v _ _).trans (SameMeta.put _ _ _),
    records_joinFirst ..⟩, hrun⟩

/-- The leaf before the last one gets the records of the last one. -/
theorem merge_joinsLast (hs : ShowsFit s v) (hb : Ready v (h := 1) ⟨pid, flags, next, ks ++ [(f, sep)], last⟩)
    (hks : ks ≠ []) (hne : f.records ≠ []) (hle : last.records.length + f.records.length ≤ v.maxSize.toNat)
    (hfit : nodeSize true (last.node.keys ++ f.node.keys) ≤ 4096) (rest : List Crumb) :
    ∃ v₁ s₁, ShowsFit s₁ v₁ ∧
      Rebuilt v v₁ (h := 1) ⟨pid, flags, next, ks ++ [(f, sep)], last⟩ ⟨pid, flags, next, ks, f.join last f.next⟩ ∧
      BTree.merge last.pid ((pid, -1) :: rest) s =
        BTree.mergeTail pid (node (h := 1) ⟨pid, flags, next, ks, f.join last f.next⟩) f.pid rest s₁ := by
  obtain ⟨hf0, hfn⟩ := hb.stored.2.2 f (by simp [Branch.children])
  obtain ⟨hl0, hln⟩ := hb.stored.2.2 last (by simp [Branch.children])
  obtain ⟨s₁, hrun, hs₁⟩ := BTree.merge_leaf_left_fit hs hb.stored.1 hb.stored.2.1 rfl hb.fits.root hl0
    hln (sibPid_last ks last) hf0 hfn rfl rfl (by simpa [Leaf.node] using hne) (by simpa [Leaf.node] using hle) rfl
    (by simp [node, Branch.keys]) (fitsPage_absorb.mpr (by rwa [nodeSize_append_comm])) rest
  have hjoin : f.node.absorb last.node = (f.join last f.next).node :=
    (Leaf.node_join f last f.next).symm
  rw [node_joinLast pid next flags f last sep hks] at hrun hs₁
  rw [hjoin] at hs₁
  exact ⟨_, s₁, hs₁, ⟨hb.stored.joinLast hb.nodup, rfl, rfl, pages_joinLast .., fun p hp => put_put_node hp
    (by simp [pages_two]) (by simp [pages_two]) _ _, (SameMeta.put v _ _).trans (SameMeta.put _ _ _),
    records_joinLast ..⟩, hrun⟩

end Join

/-- The lowest level. -/
theorem merge_settles (hs : ShowsFit s v) {b : Branch Leaf} (hb : Ready v (h := 1) b)
    (hset : Settles v.maxSize.toNat key (h := 0) b) (rest : List Crumb) :
    ∃ v₁ b' root s₁, ShowsFit s₁ v₁ ∧ Rebuilt v v₁ (h := 1) b b' ∧
      b'.keys = keptKeys v.maxSize.toNat key (h := 0) b ∧
      BTree.merge (b.child key).pid ((b.pid, if b.goesFirst key then 0 else -1) :: rest) s =
        BTree.mergeTail b.pid (node (h := 1) b') root rest s₁ := by
  by_cases hj : Joins v.maxSize.toNat key b
  · obtain ⟨htwo, hfit⟩ := hset hj
    obtain ⟨hne, hle⟩ := hj
    rw [keptKeys, if_pos ⟨hne, hle⟩]
    cases hg : b.goesFirst key with
    | true =>
      obtain ⟨f, sep, ks, hks, hf⟩ := Branch.child_of_first hg
      obtain ⟨pid, flags, next, kids, last⟩ := b
      obtain rfl : kids = (f, sep) :: ks := hks
      obtain ⟨⟨g, s₂⟩, ks, rfl⟩ := List.exists_cons_of_length_pos (show 0 < ks.length from Nat.le_of_succ_le_succ htwo)
      rw [JoinFits, Branch.neighbour_first hg, hf] at hfit
      rw [Branch.neighbour_first hg] at hne hle
      rw [hf] at hle ⊢
      obtain ⟨v₁, s₁, hs₁, hreb, hrun⟩ := merge_joinsFirst hs hb hne hle hfit rest
      exact ⟨v₁, _, _, s₁, hs₁, hreb, rfl, hrun⟩
    | false =>
      have hf := Branch.child_of_last hg
      obtain ⟨pid, flags, next, kids, last⟩ := b
      obtain ⟨ks, ⟨f, sep⟩, rfl⟩ : ∃ ks x, kids = ks ++ [x] :=
        ⟨_, _, (List.dropLast_append_getLast (show kids ≠ [] from hb.keyed.1)).symm⟩
      have hks : ks ≠ [] := by
        rintro rfl
        simp at htwo
      rw [JoinFits, Branch.neighbour_last hg, hf] at hfit
      rw [Branch.neighbour_last hg] at hne hle
      rw [hf] at hle ⊢
      obtain ⟨v₁, s₁, hs₁, hreb, hrun⟩ := merge_joinsLast hs hb hks hne hle hfit rest
      exact ⟨v₁, _, _, s₁, hs₁, hreb, by simp [Branch.keys], hrun⟩
  · obtain ⟨root, s₁, hs₁, hrun⟩ := merge_keepsLeaves hs hb hj rest
    exact ⟨v, b, root, s₁, hs₁, .refl hb.stored, by rw [keptKeys, if_neg hj], hrun⟩

/-! ## The levels above -/

/-- Two inner nodes are kept. -/
theorem merge_keepsInner (hs : ShowsFit s v) {b : Branch (Tree (h + 1))} (hb : Ready v' (h := h + 2) b)
    {c : Tree (h + 1)} (hc : Rebuilt v' v (b.child key) c)
    (hkeep : v.maxSize.toNat + 1 < (Branch.keys c).length + 1 + (Branch.kids (b.neighbour key)).length + 1)
    (rest : List Crumb) :
    ∃ root s₁, ShowsFit s₁ v ∧
      BTree.merge c.pid ((b.pid, if b.goesFirst key then 0 else -1) :: rest) s =
        BTree.mergeTail b.pid (node (h := h + 2) b) root rest s₁ := by
  have hk : b.kids ≠ [] := hb.keyed.1
  have hnb := hb.sides hc.others _ (Branch.neighbour_mem key hk)
  have hlen : (node (h := h + 1) (b.neighbour key)).keys.length = (Branch.kids (b.neighbour key)).length :=
    List.length_map ..
  obtain ⟨root, s₁, hrun, hs₁⟩ := BTree.merge_inner_keep_fit hs hb.stored.1 (hb.node hc.others) rfl
    hb.fits.1 hc.stored.root.1 hc.stored.root.2 (sibPid_neighbour hk hb.siblings hc.next) hnb.root.1 hnb.root.2
    rfl (by rw [hlen]; exact hkeep) rest
  exact ⟨root, s₁, hs₁, hrun⟩

/-- The merge below `b`, and the one of its child with the neighbour. -/
theorem merge_climb (key : BTreeKey) (b : Tree (h + 2)) (rest : List Crumb) (s : BTree Disk) :
    BTree.merge (route key b).pid (crumbs key b ++ rest) s =
      BTree.merge (route key (Branch.child key b)).pid (crumbs key (Branch.child key b) ++
        (Branch.pid b, if Branch.goesFirst key b then 0 else -1) :: rest) s := by
  rw [crumbs, List.append_assoc]
  rfl

/-- **The merges below the root.** Where they settle, the tree is stored again, and `merge` goes on above it. -/
theorem climb_settles {b : Tree (h + 1)} (hs : ShowsFit s v) (hb : Ready v b)
    (hset : Settles v.maxSize.toNat key b) (rest : List Crumb) :
    ∃ v₁ b' root s₁, ShowsFit s₁ v₁ ∧ Rebuilt v v₁ b b' ∧ Branch.keys b' = keptKeys v.maxSize.toNat key b ∧
      BTree.merge (route key b).pid (crumbs key b ++ rest) s = BTree.mergeTail b.pid b'.node root rest s₁ := by
  induction h generalizing rest with
  | zero => exact merge_settles hs hb hset rest
  | succ h ih =>
    obtain ⟨hbelow, hapart⟩ := hset
    obtain ⟨v₁, c, root₁, s₁, hs₁, hc, hkeys, hrun⟩ := ih (hb.child key) hbelow
      ((Branch.pid b, if Branch.goesFirst key b then 0 else -1) :: rest)
    rw [StaysApart, ← hkeys, ← hc.same.maxSize] at hapart
    obtain ⟨root, s₂, hs₂, hrun₂⟩ := merge_keepsInner hs₁ hb hc hapart rest
    refine ⟨v₁, Branch.setChild key b c, root, s₂, hs₂, hc.setChild hb, Branch.setChild_keys .., ?_⟩
    have heq : node (h := h + 2) (Branch.setChild key b c) = node (h := h + 2) b := node_setChild key b hc.pid
    calc BTree.merge (route key b).pid (crumbs key b ++ rest) s
      _ = BTree.merge (route key (Branch.child key b)).pid (crumbs key (Branch.child key b) ++
            (Branch.pid b, if Branch.goesFirst key b then 0 else -1) :: rest) s := merge_climb key b rest s
      _ = BTree.merge c.pid ((Branch.pid b, if Branch.goesFirst key b then 0 else -1) :: rest) s₁ := by
          rw [hrun, hc.pid]
          rfl
      _ = BTree.mergeTail (Branch.pid b) (node (h := h + 2) b) root rest s₂ := hrun₂
      _ = _ := by rw [← heq]; rfl

/-! ## Lost records -/

/-- A merge left the node `n` in the page of the root of `b`, and below it records of `b` are missing. -/
structure Wrecked (v v' : View) {h : Nat} (b : Tree (h + 1)) (n : BTreePage) : Prop where
  node : v'.node b.pid = some n
  inner : n.isLeaf = false
  next : n.next = b.node.next
  others : ∀ p ∉ b.pages, v'.node p = v.node p
  same : SameMeta v v'
  lacks : Lacks v' b.pages n b.records.length

/-- What a merge can do with the inner node `n` in the page of the child that the search goes to. -/
theorem merge_inner_cases (hs : ShowsFit s v) {b : Branch (Tree (h + 1))} {n : BTreePage}
    (hb : Ready v' (h := h + 2) b) (hothers : ∀ p ∉ (b.child key).pages, v.node p = v'.node p)
    (hn : v.node (b.child key).pid = some n) (hi : n.isLeaf = false)
    (hnext : n.next = (b.child key).node.next) {rest : List Crumb} {u : Unit}
    (hrun : BTree.merge (b.child key).pid ((b.pid, if b.goesFirst key then 0 else -1) :: rest) s = (.ok u, s'))
    (hfit : AllFit s') :
    (v.maxSize.toNat + 1 < n.keys.length + 1 + (Branch.kids (b.neighbour key)).length + 1 ∧
      ∃ root s₁, ShowsFit s₁ v ∧ BTree.mergeTail b.pid (node (h := h + 2) b) root rest s₁ = (.ok u, s')) ∨
    (b.goesFirst key = false ∧ ∃ k s₁, b.keys.getLast? = some k ∧
      ((b.neighbour key).node.absorbInner k n).FitsPage ∧
      ShowsFit s₁ ((v.put (b.neighbour key).pid ((b.neighbour key).node.absorbInner k n)).put b.pid
        (node (h := h + 2) b).demote) ∧
      BTree.mergeTail b.pid (node (h := h + 2) b).demote (b.neighbour key).pid rest s₁ = (.ok u, s')) := by
  have h0 := hb.stored.1
  have hp0 := (hb.child key).stored.root.1
  have hnode := hb.node hothers
  have hq := sibPid_neighbour hb.kids_ne hb.siblings hnext
  obtain ⟨hq0, hqn⟩ := (hb.sides hothers _ (Branch.neighbour_mem key hb.kids_ne)).root
  have hlen : (b.neighbour key).node.keys.length = (Branch.kids (b.neighbour key)).length := List.length_map ..
  have hfit' : AllFit (BTree.merge (b.child key).pid ((b.pid, if b.goesFirst key then 0 else -1) :: rest) s).2 := by
    rwa [hrun]
  have hsib' := (hs.node _ hq0).trans hqn
  by_cases hkeep : v.maxSize.toNat + 1 < n.keys.length + 1 + (Branch.kids (b.neighbour key)).length + 1
  · obtain ⟨root, s₁, hr, -, hs₁⟩ := BTree.merge_inner_keep hs.shows h0 hnode rfl hp0 hn hi hq hsib'
      (by rw [hlen]; exact hkeep) hfit'
    have htail := hr.symm.trans hrun
    exact .inl ⟨hkeep, root, s₁, BTree.showsFit_of_tail hs₁ htail hfit, htail⟩
  · have hle : n.keys.length + 1 + (b.neighbour key).node.keys.length + 1 ≤ v.maxSize.toNat + 1 := by
      rw [hlen]
      exact Nat.le_of_not_lt hkeep
    cases hg : b.goesFirst key with
    | true =>
      have hidx : (if b.goesFirst key then (0 : Int) else -1) = 0 := by rw [hg]; rfl
      exact absurd hrun
        (BTree.merge_inner_right_fails hs.shows h0 hnode rfl hp0 hn hi hq hsib' hidx hle).ne_ok
    | false =>
      have hidx : (if b.goesFirst key then (0 : Int) else -1) = -1 := by rw [hg]; rfl
      have hkeys : b.keys ≠ [] := by simpa [Branch.keys] using hb.kids_ne
      have hlast := List.getLast?_eq_some_getLast hkeys
      obtain ⟨s₁, hr, -, hs₁⟩ := BTree.merge_inner_left hs.shows h0 hnode rfl hp0 hn hi hq hsib' hidx hq0 rfl hlast
        hle hfit'
      have htail := hr.symm.trans hrun
      rw [hidx] at hq hfit'
      have hstored := BTree.merge_write_fits hs.shows h0 hnode rfl hp0 hn hq hq0 hqn hfit'
        (.bind (.flushNode _ _) fun _ => .pure _)
        (BTree.mergeNodes_inner_left hs.shows hp0 hn hi hsib' rfl hlast hle)
      exact .inr ⟨rfl, _, s₁, hlast, hstored, BTree.showsFit_of_tail hs₁ htail hfit, htail⟩

/-- A leaf that was joined with its neighbour fits, if every node does in the end. -/
theorem joinFits_of_merge (hs : Shows s v) {b : Branch Leaf} (hb : Ready v (h := 1) b)
    (hj : Joins v.maxSize.toNat key b) (hroom : 2 ≤ b.kids.length ∨ b.goesFirst key = false) {rest : List Crumb}
    (hfit : AllFit (BTree.merge (b.child key).pid ((b.pid, if b.goesFirst key then 0 else -1) :: rest) s).2) :
    JoinFits key b := by
  obtain ⟨hne, hle⟩ := hj
  rw [JoinFits]
  cases hg : b.goesFirst key with
  | true =>
    have htwo := hroom.resolve_right (by rw [hg]; simp)
    obtain ⟨f, sep, ks, hks, hf⟩ := Branch.child_of_first hg
    obtain ⟨pid, flags, next, kids, last⟩ := b
    obtain rfl : kids = (f, sep) :: ks := hks
    obtain ⟨⟨g, s₂⟩, ks, rfl⟩ := List.exists_cons_of_length_pos (show 0 < ks.length from Nat.le_of_succ_le_succ htwo)
    rw [Branch.neighbour_first hg] at hne hle ⊢
    rw [hf] at hle ⊢
    rw [hg, if_pos rfl, hf] at hfit
    obtain ⟨hf0, hfn⟩ := hb.stored.2.2 f (by simp [Branch.children])
    obtain ⟨hg0, hgn⟩ := hb.stored.2.2 g (by simp [Branch.children])
    have hq : BTree.sibPid (((f, sep) :: (g, s₂) :: ks).map (·.1.pid)) f.node (decide ((0 : Int) = -1)) =
        .ok g.pid := by
      simp [BTree.sibPid, hb.next_first]
    have hgne : g.node.keys.length ≠ 0 := by simpa [Leaf.node] using hne
    have hlen : f.node.keys.length + g.node.keys.length ≤ v.maxSize.toNat := by simpa [Leaf.node] using hle
    have hmerge : BTree.mergeNodes
        ⟨f.node, f.pid, g.node, g.pid, node (h := 1) ⟨pid, flags, next, (f, sep) :: (g, s₂) :: ks, last⟩⟩ (pid, 0)
          (decide ((0 : Int) = -1)) s = _ :=
      BTree.mergeNodes_leaf_right hs rfl rfl rfl hgne hlen hb.stored.1 hb.stored.2.1 rfl hb.pid_ne_last
        (by simp [node, Branch.keys])
    have hstored := BTree.merge_write_fits hs hb.stored.1 hb.stored.2.1 rfl hf0 hfn hq hg0 hgn hfit (.pure _) hmerge
    exact fitsPage_absorb.mp hstored
  | false =>
    have hl := Branch.child_of_last hg
    obtain ⟨pid, flags, next, kids, last⟩ := b
    obtain ⟨ks, ⟨f, sep⟩, rfl⟩ : ∃ ks x, kids = ks ++ [x] :=
      ⟨_, _, (List.dropLast_append_getLast (show kids ≠ [] from hb.keyed.1)).symm⟩
    rw [Branch.neighbour_last hg] at hne hle ⊢
    rw [hl] at hle ⊢
    rw [hg, if_neg (by simp), hl] at hfit
    obtain ⟨hf0, hfn⟩ := hb.stored.2.2 f (by simp [Branch.children])
    obtain ⟨hl0, hln⟩ := hb.stored.2.2 last (by simp [Branch.children])
    have hfne : f.node.keys.length ≠ 0 := by simpa [Leaf.node] using hne
    have hlen : last.node.keys.length + f.node.keys.length ≤ v.maxSize.toNat := by simpa [Leaf.node] using hle
    rw [nodeSize_append_comm]
    exact fitsPage_absorb.mp (BTree.merge_write_fits hs hb.stored.1 hb.stored.2.1 rfl hl0 hln (sibPid_last ks last) hf0
      hfn hfit (.pure _) (BTree.mergeNodes_leaf_left hs rfl rfl rfl hfne hlen hb.stored.1 hb.stored.2.1
        (by simp [node, Branch.keys])))

section Single

variable {pid next : PageId} {flags : UInt8} {f last : Leaf} {sep : BTreeKey} {rest : List Crumb} {u : Unit}

/-- Below a parent with one key the first leaf takes the records of the last one, whose place stays empty. -/
theorem merge_wrecksFirst (hs : ShowsFit s v) (hb : Ready v (h := 1) ⟨pid, flags, next, [(f, sep)], last⟩)
    (hne : last.records ≠ []) (hle : f.records.length + last.records.length ≤ v.maxSize.toNat)
    (hrun : BTree.merge f.pid ((pid, 0) :: rest) s = (.ok u, s')) (hfit : AllFit s') :
    ∃ v₁ n root s₁, ShowsFit s₁ v₁ ∧ Wrecked v v₁ (h := 0) ⟨pid, flags, next, [(f, sep)], last⟩ n ∧ n.keys ≠ [] ∧
      BTree.mergeTail pid n root rest s₁ = (.ok u, s') := by
  obtain ⟨hf0, hfn⟩ := hb.stored.2.2 f (by simp [Branch.children])
  obtain ⟨hl0, hln⟩ := hb.stored.2.2 last (by simp [Branch.children])
  have hlink : f.node.next = last.pid := by
    have hlinked := hb.siblings.1
    simp only [Branch.children, List.map_cons, List.map_nil, List.cons_append, List.nil_append,
      List.isChain_cons_cons] at hlinked
    exact hlinked.1
  obtain ⟨s₁, hr, -, hs₁⟩ := BTree.merge_leaf_right_last hs.shows hb.stored.1 hb.stored.2.1 rfl hf0 hfn rfl
    ((hs.node _ hl0).trans hln) rfl hlink rfl (by simpa [Leaf.node] using hne) (by simpa [Leaf.node] using hle)
    rfl (by rwa [hrun])
  have htail := hr.symm.trans hrun
  exact ⟨_, _, _, s₁, BTree.showsFit_of_tail hs₁ htail hfit, ⟨View.put_node_same .., rfl, rfl,
    fun p hp => put_put_node hp (by simp [pages_two]) (by simp [pages_two]) _ _,
    (SameMeta.put v _ _).trans (SameMeta.put _ _ _), .of_zero (by simp [BTreePage.childPids, node]) _⟩,
    by simp [node, Branch.keys], htail⟩

/-- Below a parent with one key the first leaf takes the records of the last one, and it is the last one that
stays below the parent. -/
theorem merge_wrecksLast (hs : ShowsFit s v) (hb : Ready v (h := 1) ⟨pid, flags, next, [(f, sep)], last⟩)
    (hne : f.records ≠ []) (hle : last.records.length + f.records.length ≤ v.maxSize.toNat)
    (hrun : BTree.merge last.pid ((pid, -1) :: rest) s = (.ok u, s')) (hfit : AllFit s') :
    ∃ v₁ n root s₁, ShowsFit s₁ v₁ ∧ Wrecked v v₁ (h := 0) ⟨pid, flags, next, [(f, sep)], last⟩ n ∧
      BTree.mergeTail pid n root rest s₁ = (.ok u, s') := by
  obtain ⟨hf0, hfn⟩ := hb.stored.2.2 f (by simp [Branch.children])
  have hlast : Stored (h := 0) v last := hb.stored.2.2 last (by simp [Branch.children])
  obtain ⟨s₁, hr, -, hs₁⟩ := BTree.merge_leaf_left hs.shows hb.stored.1 hb.stored.2.1 rfl hlast.1 hlast.2 rfl
    (sibPid_last [] last) ((hs.node _ hf0).trans hfn) rfl rfl (by simp [node, Branch.keys])
    (by simpa [Leaf.node] using hne) (by simpa [Leaf.node] using hle) (by rwa [hrun])
  have htail := hr.symm.trans hrun
  have hnodup := hb.nodup
  rw [pages_two] at hnodup
  simp only [List.map_cons, List.map_nil, List.cons_append, List.nil_append, List.nodup_cons, List.mem_cons,
    List.not_mem_nil, or_false, not_or] at hnodup
  refine ⟨_, _, _, s₁, BTree.showsFit_of_tail hs₁ htail hfit, ⟨View.put_node_same .., rfl, rfl,
    fun p hp => put_put_node hp (by simp [pages_two]) (by simp [pages_two]) _ _,
    (SameMeta.put v _ _).trans (SameMeta.put _ _ _), fun d rs hd hall => ?_⟩, htail⟩
  -- only the records of the last leaf can be read
  have hkept : d.nodeAt last.pid = v.node last.pid := by
    rw [hd last.pid (by simp [pages_two])]
    exact (View.put_node_ne _ _ (Ne.symm hnodup.1.2)).trans (View.put_node_ne _ _ (Ne.symm hnodup.2.1))
  have hall' : ReadsPages d ([last].map Leaf.pid) rs := hall
  have hread : rs = [last].flatMap Leaf.records := by
    refine hall'.map fun c hc r hbelow => ?_
    rw [List.mem_singleton.mp hc] at hbelow ⊢
    rw [← records_leaf]
    refine hlast.reads (fun q hq => ?_) hbelow
    rwa [List.mem_singleton.mp hq]
  have hpos := List.length_pos_iff.mpr hne
  rw [hread, records_two]
  simp only [List.flatMap_cons, List.flatMap_nil, List.append_nil, List.length_append]
  omega

end Single

/-- A leaf is joined below a parent with one key. -/
theorem merge_wrecks (hs : ShowsFit s v) {b : Branch Leaf} (hb : Ready v (h := 1) b)
    (hnot : ¬ Settles v.maxSize.toNat key (h := 0) b) {rest : List Crumb} {u : Unit}
    (hrun : BTree.merge (b.child key).pid ((b.pid, if b.goesFirst key then 0 else -1) :: rest) s = (.ok u, s'))
    (hfit : AllFit s') :
    ∃ v₁ n root s₁, ShowsFit s₁ v₁ ∧ Wrecked v v₁ (h := 0) b n ∧
      BTree.mergeTail b.pid n root rest s₁ = (.ok u, s') := by
  rw [Settles, Classical.not_imp, not_and] at hnot
  obtain ⟨hj, hnot⟩ := hnot
  have hone : b.kids.length = 1 := by
    have hpos := List.length_pos_iff.mpr (show b.kids ≠ [] from hb.keyed.1)
    by_contra hne
    exact hnot (by omega) (joinFits_of_merge hs.shows hb hj (.inl (by omega)) (by rwa [hrun]))
  obtain ⟨hne, hle⟩ := hj
  obtain ⟨pid, flags, next, kids, last⟩ := b
  obtain ⟨⟨f, sep⟩, rfl⟩ := List.length_eq_one_iff.mp (show kids.length = 1 from hone)
  cases hg : Branch.goesFirst key ⟨pid, flags, next, [(f, sep)], last⟩ with
  | true =>
    obtain ⟨_, _, _, hks, hf⟩ := Branch.child_of_first hg
    cases hks
    rw [Branch.neighbour_onlyFirst hg] at hne hle
    rw [hf] at hle hrun
    rw [hg, if_pos rfl] at hrun
    obtain ⟨v₁, n, root, s₁, hs₁, hw, -, htail⟩ := merge_wrecksFirst hs hb hne hle hrun hfit
    exact ⟨v₁, n, root, s₁, hs₁, hw, htail⟩
  | false =>
    have hl := Branch.child_of_last hg
    rw [Branch.neighbour_onlyLast hg] at hne hle
    rw [hl] at hle hrun
    rw [hg, if_neg (by simp)] at hrun
    exact merge_wrecksLast hs hb hne hle hrun hfit

/-- Two inner nodes were fused: their parent has lost both. -/
theorem wrecked_demote (key : BTreeKey) {b : Branch (Tree (h + 1))} (hb : Ready v (h := h + 2) b)
    (hothers : ∀ p ∉ (b.child key).pages, v'.node p = v.node p) (hsame : SameMeta v v') (x : BTreePage) :
    Wrecked v ((v'.put (b.neighbour key).pid x).put b.pid (node (h := h + 2) b).demote) (h := h + 1) b
      (node (h := h + 2) b).demote := by
  have hnb := Branch.side_mem (Branch.neighbour_mem key (show b.kids ≠ [] from hb.keyed.1))
  refine ⟨View.put_node_same .., rfl, rfl, fun p hp => ?_, ?_, .of_zero ?_ _⟩
  · refine (put_put_node hp (pages_child_subset hnb _ (pid_mem_pages _)) (pid_mem_pages (h := h + 2) b) _ _).trans ?_
    exact hothers p fun hq => hp (pages_child_subset (Branch.child_mem key b) p hq)
  · exact hsame.trans ((SameMeta.put v' _ _).trans (SameMeta.put _ _ _))
  · simp [BTreePage.childPids, BTreePage.demote, node]

/-- A branch over a child that lacks records. -/
theorem Wrecked.above {b : Branch (Tree (h + 1))} {n : BTreePage} (hb : Ready v (h := h + 2) b)
    (hw : Wrecked v v' (b.child key) n) : Wrecked v v' (h := h + 1) b (Tree.node (h := h + 2) b) :=
  ⟨hb.node hw.others, rfl, rfl, fun p hp => hw.others p fun hq => hp (pages_child_subset (Branch.child_mem key b) p hq),
    hw.same, hw.lacks.above hw.node hw.inner (hb.sides hw.others)⟩

/-- **Where the merges do not settle.** If they return, the root of the tree lacks records. -/
theorem climb_wrecks {b : Tree (h + 1)} (hs : ShowsFit s v) (hb : Ready v b)
    (hnot : ¬ Settles v.maxSize.toNat key b) {rest : List Crumb} {u : Unit}
    (hrun : BTree.merge (route key b).pid (crumbs key b ++ rest) s = (.ok u, s')) (hfit : AllFit s') :
    ∃ v₁ n root s₁, ShowsFit s₁ v₁ ∧ Wrecked v v₁ b n ∧ BTree.mergeTail b.pid n root rest s₁ = (.ok u, s') := by
  induction h generalizing rest with
  | zero => exact merge_wrecks hs hb hnot hrun hfit
  | succ h ih =>
    rw [merge_climb] at hrun
    by_cases hbelow : Settles v.maxSize.toNat key (Branch.child key b)
    · -- the two inner nodes would have to be kept
      obtain ⟨v₁, c, root₁, s₁, hs₁, hc, hkeys, hrun₁⟩ := climb_settles hs (hb.child key) hbelow
        ((Branch.pid b, if Branch.goesFirst key b then 0 else -1) :: rest)
      rcases merge_inner_cases hs₁ hb hc.others (hc.pid ▸ hc.stored.root.2) rfl hc.next (hrun₁.symm.trans hrun) hfit
        with ⟨hkeep, -⟩ | ⟨-, k, s₂, -, -, hs₂, htail⟩
      · refine absurd ⟨hbelow, ?_⟩ hnot
        rw [StaysApart, ← hkeys, ← hc.same.maxSize]
        exact hkeep
      · exact ⟨_, _, _, s₂, hs₂, wrecked_demote key hb hc.others hc.same _, htail⟩
    · obtain ⟨v₁, n, root₁, s₁, hs₁, hw, hrun₁⟩ := ih (hb.child key) hbelow hrun
      rcases merge_inner_cases hs₁ hb hw.others hw.node hw.inner hw.next hrun₁ hfit
        with ⟨-, root, s₂, hs₂, htail⟩ | ⟨-, k, s₂, -, -, hs₂, htail⟩
      · exact ⟨v₁, _, root, s₂, hs₂, hw.above hb, htail⟩
      · exact ⟨_, _, _, s₂, hs₂, wrecked_demote key hb hw.others hw.same _, htail⟩

end Climb

end SomeDB
