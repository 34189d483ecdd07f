import SomeDB.Index.InsertStep

/-!
# Trees

`readIndex d root` reads an index from its pages: the leaves with their depths and the separators
between them, from left to right. A page that is not a node, or page 0, makes it fail.

`Tree h` is a tree of height `h`: a leaf, or a branch whose children are trees of height `h - 1`, so
all leaves are at one depth. `Stored v t`: the pages of the view hold the nodes of `t`. An index that
stores a tree is read as that tree (`Stored.inorder`), and the search follows its route: at each branch
the first child if the key is below the first separator, and the last child if not.
-/

namespace SomeDB

open Lib

/-! ## Reading an index -/

/-- A leaf with its depth, or a separator. -/
inductive Item where
  | leaf (depth : Nat) (n : BTreePage)
  | sep (k : BTreeKey)
  deriving DecidableEq

/-- The records of a leaf. -/
def BTreePage.records (n : BTreePage) : List (BTreeKey × RID) :=
  match n.values with
  | .records rids => n.keys.zip rids
  | .children _ => []

/-- The records of an item. -/
def Item.records : Item → List (BTreeKey × RID)
  | .leaf _ n => n.records
  | .sep _ => []

/-- The leaves and separators below page `p`, from left to right. -/
def inorder (d : Disk) : Nat → Nat → PageId → Option (List Item)
  | 0, _, _ => none
  | fuel + 1, depth, p =>
    if p = 0 then none
    else match d.nodeAt p with
      | none => none
      | some n =>
        match n.values with
        | .records _ => some [.leaf depth n]
        | .children cs => do
          let kids ← (n.keys.zip cs).mapM fun kc => do
            let items ← inorder d fuel (depth + 1) kc.2
            pure (items ++ [.sep kc.1])
          let last ← inorder d fuel (depth + 1) n.rightmostPtr
          pure (kids.flatten ++ last)

/-- The leaves and separators of an index. An index without a root has none. A path of more than 2^32
pages comes back to a page it left. -/
def readIndex (d : Disk) (root : PageId) : Option (List Item) :=
  if root = 0 then some [] else inorder d (2 ^ 32) 0 root

/-- The records of an index, from left to right. -/
def readRecords (d : Disk) (root : PageId) : Option (List (BTreeKey × RID)) :=
  (readIndex d root).map fun items => items.flatMap Item.records

/-! ## Leaves and branches -/

/-- A leaf at page `pid`. -/
structure Leaf where
  pid : PageId
  flags : UInt8
  rightmostPtr : PageId
  next : PageId
  records : List (BTreeKey × RID)

/-- The node that the page of a leaf holds. -/
def Leaf.node (l : Leaf) : BTreePage where
  keys := l.records.map (·.1)
  flags := l.flags
  rightmostPtr := l.rightmostPtr
  next := l.next
  values := .records (l.records.map (·.2))

/-- A branch at page `pid`: its children, each but the last with the separator to its right. -/
structure Branch (α : Type) where
  pid : PageId
  flags : UInt8
  next : PageId
  kids : List (α × BTreeKey)
  last : α

namespace Branch

variable {α : Type}

def keys (b : Branch α) : List BTreeKey := b.kids.map (·.2)

def children (b : Branch α) : List α := b.kids.map (·.1) ++ [b.last]

/-- The search goes to the first child. -/
def goesFirst (key : BTreeKey) (b : Branch α) : Bool :=
  match b.kids with
  | [] => false
  | (_, s) :: _ => BTreeKey.Lt key s

/-- The child that the search goes to. -/
def child (key : BTreeKey) (b : Branch α) : α :=
  match b.kids with
  | [] => b.last
  | (c, s) :: _ => if BTreeKey.Lt key s then c else b.last

/-- `b` with `c` in place of the child that the search goes to. -/
def setChild (key : BTreeKey) (b : Branch α) (c : α) : Branch α :=
  match b.kids with
  | [] => { b with last := c }
  | (_, s) :: ks =>
    if BTreeKey.Lt key s then { b with kids := (c, s) :: ks } else { b with last := c }

/-- The children to the left of the one that the search goes to. -/
def left (key : BTreeKey) (b : Branch α) : List α :=
  if b.goesFirst key then [] else b.kids.map (·.1)

/-- The children to the right of it. -/
def right (key : BTreeKey) (b : Branch α) : List α :=
  if b.goesFirst key then b.kids.tail.map (·.1) ++ [b.last] else []

theorem children_setChild (key : BTreeKey) (b : Branch α) (c : α) :
    (b.setChild key c).children = b.left key ++ c :: b.right key := by
  rcases b with ⟨pid, flags, next, _ | ⟨⟨d, s⟩, ks⟩, last⟩
  · simp [setChild, children, left, right, goesFirst]
  · by_cases h : BTreeKey.Lt key s <;> simp [setChild, children, left, right, goesFirst, h]

theorem setChild_child (key : BTreeKey) (b : Branch α) : b.setChild key (b.child key) = b := by
  rcases b with ⟨pid, flags, next, _ | ⟨⟨d, s⟩, ks⟩, last⟩
  · rfl
  · by_cases h : BTreeKey.Lt key s <;> simp [setChild, child, h]

theorem children_eq (key : BTreeKey) (b : Branch α) :
    b.children = b.left key ++ b.child key :: b.right key := by
  rw [← children_setChild, setChild_child]

@[simp] theorem setChild_pid (key : BTreeKey) (b : Branch α) (c : α) :
    (b.setChild key c).pid = b.pid := by
  unfold setChild; split
  · rfl
  · split <;> rfl

@[simp] theorem setChild_keys (key : BTreeKey) (b : Branch α) (c : α) :
    (b.setChild key c).keys = b.keys := by
  unfold setChild keys; split
  · rfl
  · next h => split <;> simp [h]

/-- What holds of all children, and of the one put in, holds of all children afterwards. -/
theorem forall_setChild {P : α → Prop} {key : BTreeKey} {b : Branch α} {c : α}
    (h : ∀ d ∈ b.children, P d) (hc : P c) : ∀ d ∈ (b.setChild key c).children, P d := by
  rw [children_eq key b] at h
  rw [children_setChild]
  intro d hd
  rcases List.mem_append.mp hd with hd | hd
  · exact h d (List.mem_append_left _ hd)
  · rcases List.mem_cons.mp hd with rfl | hd
    · exact hc
    · exact h d (List.mem_append_right _ (List.mem_cons_of_mem _ hd))

theorem child_mem (key : BTreeKey) (b : Branch α) : b.child key ∈ b.children := by
  rw [children_eq key]; simp

end Branch

/-! ## Trees of a height -/

/-- A tree of height `h`. -/
@[reducible] def Tree : Nat → Type
  | 0 => Leaf
  | h + 1 => Branch (Tree h)

namespace Tree

/-- The page of the root. -/
def pid : {h : Nat} → Tree h → PageId
  | 0, l => Leaf.pid l
  | _ + 1, b => Branch.pid b

/-- The node that the page of the root holds. -/
def node : {h : Nat} → Tree h → BTreePage
  | 0, l => Leaf.node l
  | _ + 1, b =>
    { keys := Branch.keys b, flags := Branch.flags b, rightmostPtr := (Branch.last b).pid,
      next := Branch.next b, values := .children ((Branch.kids b).map (·.1.pid)) }

def leaves : {h : Nat} → Tree h → List Leaf
  | 0, l => [l]
  | _ + 1, b => (Branch.children b).flatMap leaves

def pages : {h : Nat} → Tree h → List PageId
  | 0, l => [Leaf.pid l]
  | _ + 1, b => Branch.pid b :: (Branch.children b).flatMap pages

/-- The leaves and separators, from left to right. -/
def items : {h : Nat} → Nat → Tree h → List Item
  | 0, depth, l => [.leaf depth (Leaf.node l)]
  | _ + 1, depth, b =>
    (Branch.kids b).flatMap (fun cs => items (depth + 1) cs.1 ++ [.sep cs.2]) ++
      items (depth + 1) (Branch.last b)

/-- The records, from left to right. -/
def records {h : Nat} (t : Tree h) : List (BTreeKey × RID) := t.leaves.flatMap Leaf.records

/-- The pages of the view hold the nodes of the tree. -/
def Stored (v : View) : {h : Nat} → Tree h → Prop
  | 0, l => Leaf.pid l ≠ 0 ∧ v.node (Leaf.pid l) = some (Leaf.node l)
  | h + 1, b => Branch.pid b ≠ 0 ∧ v.node (Branch.pid b) = some (node (h := h + 1) b) ∧
    ∀ c ∈ Branch.children b, Stored v c

/-- Every branch has a separator, and its separators are ascending. -/
def Keyed : {h : Nat} → Tree h → Prop
  | 0, _ => True
  | _ + 1, b => Branch.kids b ≠ [] ∧ (Branch.keys b).Pairwise BTreeKey.Lt ∧
    ∀ c ∈ Branch.children b, Keyed c

/-- The leaf that the search for `key` ends at. -/
def route (key : BTreeKey) : {h : Nat} → Tree h → Leaf
  | 0, l => l
  | _ + 1, b => route key (Branch.child key b)

/-- The breadcrumbs of that search. -/
def crumbs (key : BTreeKey) : {h : Nat} → Tree h → List Crumb
  | 0, _ => []
  | _ + 1, b => crumbs key (Branch.child key b) ++
    [(Branch.pid b, if Branch.goesFirst key b then 0 else -1)]

/-- The tree with `l` in place of that leaf. -/
def setLeaf (key : BTreeKey) : {h : Nat} → Tree h → Leaf → Tree h
  | 0, _, l => l
  | _ + 1, b, l => Branch.setChild key b (setLeaf key (Branch.child key b) l)

variable {v : View} {key : BTreeKey}

theorem Stored.root {h : Nat} {t : Tree h} (hs : Stored v t) :
    t.pid ≠ 0 ∧ v.node t.pid = some t.node := by
  cases h with
  | zero => exact hs
  | succ h => exact ⟨hs.1, hs.2.1⟩

theorem pid_mem_pages {h : Nat} (t : Tree h) : t.pid ∈ t.pages := by
  cases h with
  | zero => exact List.mem_singleton.mpr rfl
  | succ h => exact List.mem_cons_self ..

/-- A tree stays stored as long as its pages keep what they hold. -/
theorem Stored.congr {v' : View} {h : Nat} {t : Tree h} (hs : Stored v t)
    (hv : ∀ p ∈ t.pages, v'.node p = v.node p) : Stored v' t := by
  induction h with
  | zero => exact ⟨hs.1, (hv _ (pid_mem_pages _)).trans hs.2⟩
  | succ h ih =>
    refine ⟨hs.1, (hv _ (pid_mem_pages t)).trans hs.2.1, fun c hc => ih (hs.2.2 c hc) fun p hp => ?_⟩
    exact hv p (List.mem_cons_of_mem _ (List.mem_flatMap.mpr ⟨c, hc, hp⟩))

/-! ## Reading a stored tree -/

theorem mapM_eq_some {α β : Type} {f : α → Option β} {g : α → β} (xs : List α)
    (h : ∀ x ∈ xs, f x = some (g x)) : xs.mapM f = some (xs.map g) := by
  induction xs with
  | nil => rfl
  | cons x xs ih =>
    rw [List.mapM_cons, h x (List.mem_cons_self ..), ih fun y hy => h y (List.mem_cons_of_mem _ hy)]
    rfl

theorem zip_keys_pids {h : Nat} (b : Branch (Tree h)) :
    b.keys.zip (b.kids.map (·.1.pid)) = b.kids.map fun cs => (cs.2, cs.1.pid) := by
  rw [Branch.keys, List.zip_map']

/-- A stored tree is read as it is. -/
theorem Stored.inorder {s : BTree Disk} (hshow : Shows s v) {h : Nat} {t : Tree h} (hs : Stored v t)
    {fuel : Nat} (hf : h < fuel) (depth : Nat) :
    SomeDB.inorder s.bpm fuel depth t.pid = some (t.items depth) := by
  induction h generalizing fuel depth with
  | zero =>
    obtain ⟨fuel, rfl⟩ : ∃ f, fuel = f + 1 := ⟨fuel - 1, by omega⟩
    obtain ⟨h0, hn⟩ := hs.root
    rw [SomeDB.inorder, if_neg h0, hshow.node _ h0, hn]
    rfl
  | succ h ih =>
    obtain ⟨fuel, rfl⟩ : ∃ f, fuel = f + 1 := ⟨fuel - 1, by omega⟩
    obtain ⟨h0, hn⟩ := hs.root
    have hkids : (Branch.kids t).mapM (fun cs => do
        let items ← SomeDB.inorder s.bpm fuel (depth + 1) cs.1.pid
        pure (items ++ [Item.sep cs.2])) =
          some ((Branch.kids t).map fun cs => cs.1.items (depth + 1) ++ [Item.sep cs.2]) := by
      refine mapM_eq_some _ fun cs hcs => ?_
      have hmem : cs.1 ∈ Branch.children t :=
        List.mem_append_left _ (List.mem_map_of_mem (f := Prod.fst) hcs)
      rw [ih (hs.2.2 _ hmem) (by omega)]
      rfl
    have hlast : SomeDB.inorder s.bpm fuel (depth + 1) (Branch.last t).pid =
        some ((Branch.last t).items (depth + 1)) :=
      ih (hs.2.2 _ (List.mem_append_right _ (List.mem_singleton.mpr rfl))) (by omega) _
    rw [SomeDB.inorder, if_neg h0, hshow.node _ h0, hn]
    simp only [node]
    rw [zip_keys_pids, List.mapM_map]
    simp only [Function.comp_def, hkids, hlast]
    rfl

/-! ## The search -/

theorem noInner_of_pairwise {keys : List BTreeKey} (h : keys.Pairwise BTreeKey.Lt) (key : BTreeKey) :
    NoInner key keys := by
  intro i a b hi ha hb ⟨hpos, hle⟩
  have hlt : BTreeKey.Lt a b := by
    obtain ⟨hi₁, rfl⟩ := List.getElem?_eq_some_iff.mp ha
    obtain ⟨hi₂, rfl⟩ := List.getElem?_eq_some_iff.mp hb
    exact List.pairwise_iff_getElem.mp h _ _ hi₁ hi₂ (by omega)
  exact BTreeKey.cmpKeys_nonpos.mp hle (BTreeKey.lt_trans (BTreeKey.cmpKeys_pos.mp hpos) hlt)

/-- The search in a stored tree follows the route. -/
theorem Stored.path {h : Nat} {t : Tree h} (hs : Stored v t) (hk : Keyed t) (key : BTreeKey) :
    Path v key t.pid (route key t).pid (route key t).node (crumbs key t) := by
  induction h with
  | zero => exact .leaf hs.1 hs.2 rfl
  | succ h ih =>
    obtain ⟨h0, hn⟩ := hs.root
    obtain ⟨hne, hsorted, hkids⟩ := hk
    have hrest := ih (hs.2.2 _ (Branch.child_mem key t)) (hkids _ (Branch.child_mem key t))
    rcases t with ⟨pid, flags, next, _ | ⟨⟨c, s⟩, ks⟩, last⟩
    · exact absurd rfl hne
    · by_cases hlt : BTreeKey.Lt key s
      · simp only [Branch.child, if_pos hlt] at hrest
        simp only [crumbs, route, Branch.child, Branch.goesFirst, hlt, if_true, decide_true]
        exact .first h0 hn rfl rfl hlt rfl hrest
      · simp only [Branch.child, if_neg hlt] at hrest
        simp only [crumbs, route, Branch.child, Branch.goesFirst, hlt, if_false, decide_false,
          Bool.false_eq_true]
        exact .last h0 hn rfl rfl hlt (noInner_of_pairwise hsorted key) hrest

theorem crumbs_length (key : BTreeKey) {h : Nat} (t : Tree h) : (crumbs key t).length = h := by
  induction h with
  | zero => rfl
  | succ h ih => simp only [crumbs, List.length_append, ih]; rfl

/-! ## Replacing the leaf of the route -/

theorem route_pid_mem (key : BTreeKey) {h : Nat} (t : Tree h) : (route key t).pid ∈ t.pages := by
  induction h with
  | zero => exact List.mem_singleton.mpr rfl
  | succ h ih =>
    exact List.mem_cons_of_mem _ (List.mem_flatMap.mpr ⟨_, Branch.child_mem key t, ih _⟩)

theorem setLeaf_pid {h : Nat} (t : Tree h) {l : Leaf} (hl : l.pid = (route key t).pid) :
    (setLeaf key t l).pid = t.pid := by
  cases h with
  | zero => exact hl
  | succ h => exact Branch.setChild_pid ..

theorem setLeaf_pages {h : Nat} (t : Tree h) {l : Leaf} (hl : l.pid = (route key t).pid) :
    (setLeaf key t l).pages = t.pages := by
  induction h with
  | zero => exact congrArg (fun p => [p]) hl
  | succ h ih =>
    show (Branch.setChild key t _).pid :: (Branch.setChild key t _).children.flatMap pages =
      Branch.pid t :: (Branch.children t).flatMap pages
    rw [Branch.setChild_pid, Branch.children_setChild, Branch.children_eq key t]
    simp only [List.flatMap_append, List.flatMap_cons, ih _ hl]

/-- The page of a branch is none of the pages below it, and its children share no page. -/
theorem nodup_branch {h : Nat} {b : Branch (Tree h)} (hn : (pages (h := h + 1) b).Nodup)
    (key : BTreeKey) :
    b.pid ∉ pages (b.child key) ∧ (pages (b.child key)).Nodup ∧
      ∀ c, c ∈ b.left key ∨ c ∈ b.right key → ∀ p ∈ pages c, p ∉ pages (b.child key) := by
  simp only [pages, Branch.children_eq key b, List.flatMap_append, List.flatMap_cons,
    List.nodup_cons, List.nodup_append, List.mem_append, not_or] at hn
  obtain ⟨⟨-, hpid, -⟩, hleft, ⟨hchild, -, hcr⟩, hdisj⟩ := hn
  refine ⟨hpid, hchild, fun c hc p hp hp' => ?_⟩
  rcases hc with hc | hc
  · exact hdisj p (List.mem_flatMap.mpr ⟨c, hc, hp⟩) p (.inl hp') rfl
  · exact hcr p hp' p (List.mem_flatMap.mpr ⟨c, hc, hp⟩) rfl

/-- Putting a child in at the same page does not change the node of a branch. -/
theorem node_setChild (key : BTreeKey) {h : Nat} (b : Branch (Tree h)) {c : Tree h}
    (hc : c.pid = (b.child key).pid) :
    node (h := h + 1) (b.setChild key c) = node (h := h + 1) b := by
  rcases b with ⟨pid, flags, next, _ | ⟨⟨d, s⟩, ks⟩, last⟩
  · simp_all [Branch.setChild, Branch.child, node, Branch.keys]
  · by_cases hlt : BTreeKey.Lt key s <;>
      simp_all [Branch.setChild, Branch.child, node, Branch.keys]

/-- Storing a tree in place of the child that the search goes to. -/
theorem Stored.setChild {v' : View} {h : Nat} {b : Branch (Tree h)} (hs : Stored (h := h + 1) v b)
    (hn : (pages (h := h + 1) b).Nodup) {c : Tree h} (hc : Stored v' c)
    (hpid : c.pid = (b.child key).pid)
    (hv : ∀ p ∈ pages (h := h + 1) b, p ∉ pages (b.child key) → v'.node p = v.node p) :
    Stored (h := h + 1) v' (b.setChild key c) := by
  obtain ⟨hroot, -, hdisj⟩ := nodup_branch hn key
  obtain ⟨h0, hnode, hkids⟩ := hs
  refine ⟨(Branch.setChild_pid ..).symm ▸ h0, ?_, ?_⟩
  · rw [Branch.setChild_pid, hv b.pid (List.mem_cons_self ..) hroot, hnode]
    exact congrArg some (node_setChild key b hpid).symm
  · have hside : ∀ d, d ∈ b.left key ∨ d ∈ b.right key → Stored v' d := by
      intro d hd
      have hmem : d ∈ b.children := by
        rw [Branch.children_eq key b]
        simpa using hd.elim .inl (fun h => .inr (.inr h))
      refine (hkids d hmem).congr fun p hp => hv p ?_ (hdisj d hd p hp)
      exact List.mem_cons_of_mem _ (List.mem_flatMap.mpr ⟨d, hmem, hp⟩)
    intro d hd
    rw [Branch.children_setChild] at hd
    rcases List.mem_append.mp hd with hd | hd
    · exact hside d (.inl hd)
    · rcases List.mem_cons.mp hd with rfl | hd
      · exact hc
      · exact hside d (.inr hd)

/-- Storing a leaf at the end of the route. -/
theorem Stored.setLeaf {h : Nat} {t : Tree h} (hs : Stored v t) (hn : t.pages.Nodup) {l : Leaf}
    (hl : l.pid = (route key t).pid) : Stored (v.put l.pid l.node) (setLeaf key t l) := by
  induction h with
  | zero => exact ⟨hl ▸ hs.1, View.put_node_same ..⟩
  | succ h ih =>
    have hmem : l.pid ∈ pages (Branch.child key t) := hl ▸ route_pid_mem key _
    have hchild := ih (hs.2.2 _ (Branch.child_mem key t)) (nodup_branch hn key).2.1 hl
    refine Stored.setChild hs hn hchild (setLeaf_pid _ hl) fun p _ hp => View.put_node_ne _ _ ?_
    rintro rfl
    exact hp hmem

end Tree

end SomeDB
