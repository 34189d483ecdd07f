import SomeDB.Index.LeafChain

/-!
# Reading an index that may have lost records

`ReadsPage d p rs`: the records below page `p` are `rs`. Below page 0 nothing can be read. `Lacks v ps n k`: below the
node `n` fewer than `k` records can be read, whatever is written to pages other than `ps`. A child that lacks
records makes its parent lack them (`Lacks.above`), and so does a child pointer that is 0 (`Lacks.of_zero`).
-/

namespace SomeDB

open Lib SomeDB.Tree

/-- The records below page `p`, from left to right, are `rs`. -/
def ReadsPage (d : Disk) (p : PageId) (rs : List (BTreeKey × RID)) : Prop :=
  ∃ fuel depth items, inorder d fuel depth p = some items ∧ items.flatMap Item.records = rs

/-- The records below the pages `ps` are `rs`. -/
def ReadsPages (d : Disk) : List PageId → List (BTreeKey × RID) → Prop
  | [], rs => rs = []
  | p :: ps, rs => ∃ r rs', ReadsPage d p r ∧ ReadsPages d ps rs' ∧ rs = r ++ rs'

section ReadsPage

variable {d : Disk} {p : PageId} {ps qs : List PageId} {n : BTreePage} {rs : List (BTreeKey × RID)}

theorem not_readsPage_zero : ¬ ReadsPage d 0 rs := by
  rintro ⟨fuel, depth, items, h, -⟩
  cases fuel with
  | zero => cases h
  | succ fuel =>
    rw [inorder, if_pos rfl] at h
    cases h

theorem readsPage_of_readRecords (hp : p ≠ 0) (h : readRecords d p = some rs) : ReadsPage d p rs := by
  rw [readRecords, readIndex, if_neg hp] at h
  obtain ⟨items, hitems, hrs⟩ := Option.map_eq_some_iff.mp h
  exact ⟨_, _, items, hitems, hrs⟩

theorem readsPages_append :
    ReadsPages d (ps ++ qs) rs ↔ ∃ r r', ReadsPages d ps r ∧ ReadsPages d qs r' ∧ rs = r ++ r' := by
  induction ps generalizing rs with
  | nil =>
    constructor
    · exact fun h => ⟨[], rs, rfl, h, rfl⟩
    · rintro ⟨r, r', rfl, h, rfl⟩
      exact h
  | cons p ps ih =>
    constructor
    · rintro ⟨r, rs', hr, hrest, rfl⟩
      obtain ⟨r₁, r₂, h₁, h₂, rfl⟩ := ih.mp hrest
      exact ⟨r ++ r₁, r₂, ⟨r, r₁, hr, h₁, rfl⟩, h₂, (List.append_assoc ..).symm⟩
    · rintro ⟨_, r₂, ⟨r, r₁, hr, h₁, rfl⟩, h₂, rfl⟩
      exact ⟨r, r₁ ++ r₂, hr, ih.mpr ⟨r₁, r₂, h₁, h₂, rfl⟩, List.append_assoc ..⟩

theorem ReadsPages.mem (h : ReadsPages d ps rs) (hp : p ∈ ps) : ∃ r, ReadsPage d p r := by
  induction ps generalizing rs with
  | nil => cases hp
  | cons q ps ih =>
    obtain ⟨r, rs', hr, hrest, -⟩ := h
    rcases List.mem_cons.mp hp with rfl | hp
    · exact ⟨r, hr⟩
    · exact ih hrest hp

theorem ReadsPages.map {α : Type} {f : α → PageId} {g : α → List (BTreeKey × RID)} {cs : List α}
    (h : ReadsPages d (cs.map f) rs) (hc : ∀ c ∈ cs, ∀ r, ReadsPage d (f c) r → r = g c) : rs = cs.flatMap g := by
  induction cs generalizing rs with
  | nil => exact h
  | cons c cs ih =>
    obtain ⟨r, rs', hr, hrest, rfl⟩ := h
    rw [List.flatMap_cons, hc c (List.mem_cons_self ..) r hr,
      ih hrest fun x hx => hc x (List.mem_cons_of_mem _ hx)]

/-- The children of an internal node with the separators between them. -/
theorem readsPages_of_mapM {fuel depth : Nat} {keys : List BTreeKey} {cs : List PageId} {kids : List (List Item)}
    (hlen : cs.length = keys.length)
    (h : ((keys.zip cs).mapM fun kc => do
      let items ← inorder d fuel depth kc.2
      pure (items ++ [Item.sep kc.1])) = some kids) :
    ReadsPages d cs (kids.flatten.flatMap Item.records) := by
  induction keys generalizing cs kids with
  | nil =>
    obtain rfl := List.length_eq_zero_iff.mp hlen
    cases h
    rfl
  | cons k keys ih =>
    obtain ⟨c, cs, rfl⟩ := List.exists_cons_of_length_eq_add_one hlen
    rw [List.zip_cons_cons, List.mapM_cons] at h
    obtain ⟨first, hfirst, h⟩ := Option.bind_eq_some_iff.mp h
    obtain ⟨others, hothers, h⟩ := Option.bind_eq_some_iff.mp h
    obtain ⟨items, hitems, hsep⟩ := Option.bind_eq_some_iff.mp hfirst
    cases h
    cases hsep
    refine ⟨_, _, ⟨fuel, depth, items, hitems, rfl⟩, ih (by simpa using hlen) hothers, ?_⟩
    simp [Item.records]

/-- Below an internal node the records of its children are read. -/
theorem ReadsPage.children (h : ReadsPage d p rs) (hn : d.nodeAt p = some n) (hi : n.isLeaf = false) :
    ReadsPages d n.childPids rs := by
  obtain ⟨cs, hcs⟩ := BTreePage.values_of_not_isLeaf (by rw [hi]; simp)
  have hlen : cs.length = n.keys.length :=
    (BTreePage.valCount_children hcs).symm.trans (Disk.nodeAt_paired hn).2.1
  obtain ⟨fuel, depth, items, hread, rfl⟩ := h
  cases fuel with
  | zero => cases hread
  | succ fuel =>
    rw [inorder] at hread
    split at hread
    · cases hread
    · rw [hn] at hread
      simp only [hcs] at hread
      obtain ⟨kids, hkids, hread⟩ := Option.bind_eq_some_iff.mp hread
      obtain ⟨last, hlast, hread⟩ := Option.bind_eq_some_iff.mp hread
      cases hread
      rw [BTreePage.childPids, hcs, List.flatMap_append]
      refine readsPages_append.mpr ⟨_, _, readsPages_of_mapM hlen hkids, ?_, rfl⟩
      exact ⟨_, [], ⟨fuel, _, last, hlast, rfl⟩, rfl, (List.append_nil _).symm⟩

/-- Below the root of a tree the records of the tree are read. -/
theorem Tree.Stored.reads {v : View} {h : Nat} {t : Tree h} (hs : Stored v t)
    (hd : ∀ q ∈ t.pages, d.nodeAt q = v.node q) (hr : ReadsPage d t.pid rs) : rs = t.records := by
  induction h generalizing rs with
  | zero =>
    obtain ⟨fuel, depth, items, hread, rfl⟩ := hr
    cases fuel with
    | zero => cases hread
    | succ fuel =>
      rw [SomeDB.inorder, if_neg hs.root.1, hd _ (pid_mem_pages t), hs.root.2] at hread
      cases hread
      exact records_items (h := 0) t depth
  | succ h ih =>
    have hall := hr.children ((hd _ (pid_mem_pages t)).trans hs.root.2) rfl
    rw [childPids_node] at hall
    refine (hall.map fun c hc r hrc => ih (hs.2.2 c hc) (fun q hq => hd q ?_) hrc).trans (records_branch t).symm
    exact List.mem_cons_of_mem _ (List.mem_flatMap.mpr ⟨c, hc, hq⟩)

/-- Below trees next to each other. -/
theorem readsPages_trees {v : View} {h : Nat} {cs : List (Tree h)} (hs : ∀ c ∈ cs, Stored v c)
    (hd : ∀ c ∈ cs, ∀ q ∈ c.pages, d.nodeAt q = v.node q) (hr : ReadsPages d (cs.map Tree.pid) rs) :
    rs = cs.flatMap records :=
  hr.map fun c hc _ hrc => (hs c hc).reads (hd c hc) hrc

end ReadsPage

/-! ## Lost records -/

/-- Below the node `n` fewer than `k` records can be read from a disk that holds the nodes of `v` in the pages `ps`. -/
def Lacks (v : View) (ps : List PageId) (n : BTreePage) (k : Nat) : Prop :=
  ∀ (d : Disk) (rs : List (BTreeKey × RID)), (∀ q ∈ ps, d.nodeAt q = v.node q) → ReadsPages d n.childPids rs →
    rs.length < k

section Lacks

variable {v : View} {key : BTreeKey}

/-- A node with a child pointer that is 0. -/
theorem Lacks.of_zero {ps : List PageId} {n : BTreePage} (h0 : (0 : PageId) ∈ n.childPids) (k : Nat) :
    Lacks v ps n k := by
  intro d rs _ hall
  obtain ⟨r, hr⟩ := hall.mem h0
  exact absurd hr not_readsPage_zero

/-- The child that the search goes to lacks records. -/
theorem Lacks.above {h : Nat} {b : Branch (Tree (h + 1))} {n : BTreePage}
    (hn : v.node (b.child key).pid = some n) (hi : n.isLeaf = false)
    (hl : Lacks v (pages (b.child key)) n (records (b.child key)).length)
    (hother : ∀ c, c ∈ b.left key ∨ c ∈ b.right key → Stored v c) :
    Lacks v (pages (h := h + 2) b) (node (h := h + 2) b) (records (h := h + 2) b).length := by
  intro d rs hd hall
  have hsub : ∀ c ∈ b.children, ∀ q ∈ pages c, d.nodeAt q = v.node q := fun c hc q hq =>
    hd q (List.mem_cons_of_mem _ (List.mem_flatMap.mpr ⟨c, hc, hq⟩))
  rw [Branch.children_eq key b] at hsub
  rw [childPids_node, Branch.children_eq key b, List.map_append, List.map_cons] at hall
  obtain ⟨r₁, r₂, hleft, ⟨r, r₃, hchild, hright, rfl⟩, rfl⟩ := readsPages_append.mp hall
  have h₁ := readsPages_trees (fun c hc => hother c (.inl hc))
    (fun c hc => hsub c (List.mem_append_left _ hc)) hleft
  have h₃ := readsPages_trees (fun c hc => hother c (.inr hc))
    (fun c hc => hsub c (List.mem_append_right _ (List.mem_cons_of_mem _ hc))) hright
  have hc := hsub (b.child key) (by simp)
  have h₂ := hl d r hc (hchild.children ((hc _ (pid_mem_pages _)).trans hn) hi)
  rw [records_branch, Branch.children_eq key b, List.flatMap_append, List.flatMap_cons, h₁, h₃]
  simp only [List.length_append]
  omega

theorem BTreePage.childPids_absorbInner {l r : BTreePage} (hl : l.isLeaf = false) (hr : r.isLeaf = false)
    (k : BTreeKey) : (l.absorbInner k r).childPids = l.childPids ++ r.childPids := by
  obtain ⟨ls, hls⟩ := values_of_not_isLeaf (by rw [hl]; simp)
  obtain ⟨rs, hrs⟩ := values_of_not_isLeaf (by rw [hr]; simp)
  rw [absorbInner_eq hls hrs]
  simp [childPids, hls, hrs]

/-- The tree `l` is fused with a node in place of the tree `c` that lacks records. -/
theorem Lacks.fused {h : Nat} {l c : Tree (h + 1)} {n : BTreePage} (hi : n.isLeaf = false)
    (hlacks : Lacks v c.pages n c.records.length) (hl : ∀ x ∈ Branch.children l, Stored v x) {d : Disk}
    (hdl : ∀ x ∈ Branch.children l, ∀ q ∈ x.pages, d.nodeAt q = v.node q) (hdc : ∀ q ∈ c.pages, d.nodeAt q = v.node q)
    {k : BTreeKey} {rs : List (BTreeKey × RID)} (hr : ReadsPages d (l.node.absorbInner k n).childPids rs) :
    rs.length < l.records.length + c.records.length := by
  rw [BTreePage.childPids_absorbInner rfl hi, childPids_node] at hr
  obtain ⟨r₁, r₂, h₁, h₂, rfl⟩ := readsPages_append.mp hr
  have hlen := hlacks d r₂ hdc h₂
  rw [readsPages_trees hl hdl h₁, ← records_branch, List.length_append]
  omega

end Lacks

end SomeDB
