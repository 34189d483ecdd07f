import SomeDB.Index.Form
import SomeDB.Index.TwoLevels
import SomeDB.Index.SplitPages

/-!
# The chain of leaves

`leafPages` lists the leaves below a page by its child pointers, `followNext` by the pointers to the next leaf.
The two agree on a tree whose leaves, a list, are chained. An operation that puts a row of leaves in place of
another keeps the chain if the new row begins in the same page and ends in a leaf with the same `next`
(`Relinks.of_ends`), wherever the row stands in the tree.
-/

namespace SomeDB

open Lib SomeDB.Tree

/-! ## Two ways to list the leaves -/

/-- The pages of the leaves below page `p`, from left to right. -/
def leafPages (d : Disk) : Nat → PageId → Option (List PageId)
  | 0, _ => none
  | fuel + 1, p =>
    if p = 0 then none
    else match d.nodeAt p with
      | none => none
      | some n =>
        if n.isLeaf then some [p]
        else (n.childPids.mapM (leafPages d fuel)).map List.flatten

/-- The pages from page `p` on that `next` leads to. Page 0 ends them. -/
def followNext (d : Disk) : Nat → PageId → Option (List PageId)
  | 0, _ => none
  | fuel + 1, p =>
    if p = 0 then some []
    else match d.nodeAt p with
      | none => none
      | some n => (followNext d fuel n.next).map (p :: ·)

/-- Following `next` from the leftmost leaf visits the leaves of the index from left to right, and the last
one names no other. An index without a root has no leaves. There are 2^32 page ids, so a longer walk has come
back to a page it left. -/
def ChainListsLeaves (d : Disk) (root : PageId) : Prop :=
  root = 0 ∨ ∃ p ps, leafPages d (2 ^ 32) root = some (p :: ps) ∧ followNext d (2 ^ 32) p = some (p :: ps)

/-- Each leaf names the one to its right, and the last one names none. -/
def Chained (ls : List Leaf) : Prop := Linked ls ∧ ∀ l ∈ ls.getLast?, l.next = 0

section Reading

variable {s : BTree Disk} {v : View} {h : Nat} {t : Tree h}

theorem Tree.Stored.leaves (hs : Stored v t) : ∀ l ∈ t.leaves, Stored (h := 0) v l := by
  induction h with
  | zero =>
    intro l hl
    obtain rfl := List.mem_singleton.mp hl
    exact hs
  | succ h ih =>
    intro l hl
    obtain ⟨c, hc, hl⟩ := List.mem_flatMap.mp hl
    exact ih (hs.2.2 c hc) l hl

theorem Tree.leaves_ne_nil (t : Tree h) : t.leaves ≠ [] := by
  induction h with
  | zero => exact List.cons_ne_nil _ _
  | succ h ih =>
    intro hnil
    have hlast : Branch.last t ∈ Branch.children t := by simp [Branch.children]
    exact ih _ (List.flatMap_eq_nil_iff.mp hnil _ hlast)

/-- The pages of the leaves are pages of the tree. -/
theorem Tree.leaves_sublist (t : Tree h) : (t.leaves.map Leaf.pid).Sublist t.pages := by
  induction h with
  | zero => exact .refl _
  | succ h ih =>
    refine List.Sublist.trans ?_ (List.sublist_cons_self ..)
    show ((Branch.children t).flatMap Tree.leaves).map Leaf.pid |>.Sublist ((Branch.children t).flatMap pages)
    rw [List.map_flatMap]
    induction Branch.children t with
    | nil => exact .refl _
    | cons c cs ihc =>
      rw [List.flatMap_cons, List.flatMap_cons]
      exact (ih c).append ihc

theorem Tree.childPids_node (b : Branch (Tree h)) :
    (node (h := h + 1) b).childPids = b.children.map pid := by
  simp [node, BTreePage.childPids, Branch.children]

/-- The child pointers of a stored tree lead to its leaves. -/
theorem Tree.Stored.leafPages (hshow : Shows s v) (hs : Stored v t) {fuel : Nat} (hf : h < fuel) :
    SomeDB.leafPages s.bpm fuel t.pid = some (t.leaves.map Leaf.pid) := by
  induction h generalizing fuel with
  | zero =>
    obtain ⟨fuel, rfl⟩ : ∃ f, fuel = f + 1 := ⟨fuel - 1, by omega⟩
    obtain ⟨h0, hn⟩ := hs.root
    rw [SomeDB.leafPages, if_neg h0, hshow.node _ h0, hn]
    rfl
  | succ h ih =>
    obtain ⟨fuel, rfl⟩ : ∃ f, fuel = f + 1 := ⟨fuel - 1, by omega⟩
    obtain ⟨h0, hn⟩ := hs.root
    have hkids : (Branch.children t).mapM (fun c => SomeDB.leafPages s.bpm fuel c.pid) =
        some ((Branch.children t).map fun c => c.leaves.map Leaf.pid) :=
      mapM_eq_some _ fun c hc => ih (hs.2.2 c hc) (by omega)
    have hinner : (node (h := h + 1) t).isLeaf = false := rfl
    have hleaves : t.leaves.map Leaf.pid = ((Branch.children t).map fun c => c.leaves.map Leaf.pid).flatten := by
      show ((Branch.children t).flatMap Tree.leaves).map Leaf.pid = _
      rw [List.map_flatMap, List.flatMap_def]
    rw [SomeDB.leafPages, if_neg h0, hshow.node _ h0, hn, hleaves]
    simp only [hinner, Bool.false_eq_true, if_false]
    rw [childPids_node, List.mapM_map]
    simp only [Function.comp_def, hkids, Option.map_some]

/-- So do the pointers to the next leaf, if the leaves are chained. -/
theorem Chained.followNext (hshow : Shows s v) {l : Leaf} {ls : List Leaf} (hc : Chained (l :: ls))
    (hs : ∀ l' ∈ l :: ls, Stored (h := 0) v l') {fuel : Nat} (hf : (l :: ls).length < fuel) :
    SomeDB.followNext s.bpm fuel l.pid = some ((l :: ls).map Leaf.pid) := by
  induction ls generalizing l fuel with
  | nil =>
    obtain ⟨fuel, rfl⟩ : ∃ f, fuel = f + 2 := ⟨fuel - 2, by simp at hf; omega⟩
    obtain ⟨h0, hn⟩ := hs l (List.mem_cons_self ..)
    have hnext : l.next = 0 := hc.2 l rfl
    rw [SomeDB.followNext, if_neg h0, hshow.node _ h0, hn]
    simp only [Leaf.node, hnext, SomeDB.followNext, if_true, Option.map_some, List.map_cons, List.map_nil]
  | cons l' ls ih =>
    obtain ⟨fuel, rfl⟩ : ∃ f, fuel = f + 1 := ⟨fuel - 1, by omega⟩
    obtain ⟨h0, hn⟩ := hs l (List.mem_cons_self ..)
    obtain ⟨hlink, hend⟩ := hc
    rw [Linked, List.isChain_cons_cons] at hlink
    have hrest := ih (l := l') ⟨hlink.2, fun x hx => hend x (by simpa using hx)⟩
      (fun x hx => hs x (List.mem_cons_of_mem _ hx)) (Nat.lt_of_succ_lt_succ hf)
    rw [SomeDB.followNext, if_neg h0, hshow.node _ h0, hn]
    simp only [Leaf.node, hlink.1, hrest, Option.map_some, List.map_cons]

/-- There are fewer leaves than page ids, as page 0 is none. -/
theorem Held.leaves_length (ht : Held v t) : t.leaves.length < 2 ^ 32 := by
  have hnodup : (0 :: t.leaves.map Leaf.pid).Nodup := by
    refine List.nodup_cons.mpr ⟨fun hmem => ?_, ht.nodup.sublist t.leaves_sublist⟩
    obtain ⟨l, hl, h0⟩ := List.mem_map.mp hmem
    exact (ht.stored.leaves l hl).1 h0
  have hle := nodup_pids_length hnodup
  rw [List.length_cons, List.length_map] at hle
  exact hle

/-- An index that is a tree with chained leaves. -/
theorem Held.chainListsLeaves (hs : Shows s v) (ht : Held v t) (hc : Chained t.leaves) :
    ChainListsLeaves s.bpm s.rootPid := by
  obtain ⟨l, ls, hls⟩ := List.exists_cons_of_ne_nil t.leaves_ne_nil
  have hlen := ht.leaves_length
  rw [hls] at hc hlen
  refine .inr ⟨l.pid, ls.map Leaf.pid, ?_, ?_⟩
  · rw [hs.rootPid, ht.root, ht.stored.leafPages hs ht.stored.height_lt, hls]
    rfl
  · exact hc.followNext hs (hls ▸ ht.stored.leaves) hlen

end Reading

/-! ## Leaves in the chain -/

/-- The leaves `ls'` can take the place of `ls` in every chain. -/
def Relinks (ls ls' : List Leaf) : Prop := ∀ A B, Chained (A ++ ls ++ B) → Chained (A ++ ls' ++ B)

namespace Relinks

variable {ls ls' ls'' : List Leaf} {f g : Leaf}

theorem refl (ls : List Leaf) : Relinks ls ls := fun _ _ h => h

theorem trans (h : Relinks ls ls') (h' : Relinks ls' ls'') : Relinks ls ls'' :=
  fun A B hc => h' A B (h A B hc)

/-- Further leaves on both sides. -/
theorem append (h : Relinks ls ls') (A B : List Leaf) : Relinks (A ++ ls ++ B) (A ++ ls' ++ B) := by
  intro A' B' hc
  have := h (A' ++ A) (B ++ B') (by simpa only [List.append_assoc] using hc)
  simpa only [List.append_assoc] using this

theorem chained (h : Relinks ls ls') (hc : Chained ls) : Chained ls' := by
  simpa using h [] [] (by simpa using hc)

/-- What matters of a row of leaves is the page of its first leaf and what its last one names. -/
theorem of_ends (hpid : g.pid = f.pid) (hlink : Linked (f :: ls) → Linked (g :: ls'))
    (hnext : ∀ x ∈ (f :: ls).getLast?, ∀ y ∈ (g :: ls').getLast?, y.next = x.next) :
    Relinks (f :: ls) (g :: ls') := by
  rintro A B ⟨hl, hend⟩
  rw [Linked, List.append_assoc, List.isChain_append, List.isChain_append] at hl
  obtain ⟨hA, ⟨hrow, hB, hrowB⟩, hArow⟩ := hl
  obtain ⟨x, hx⟩ : ∃ x, (f :: ls).getLast? = some x :=
    ⟨_, List.getLast?_eq_some_getLast (List.cons_ne_nil _ _)⟩
  constructor
  · rw [Linked, List.append_assoc, List.isChain_append, List.isChain_append]
    refine ⟨hA, ⟨hlink hrow, hB, fun y hy b hb => ?_⟩, fun a ha b hb => ?_⟩
    · exact (hnext x hx y hy).trans (hrowB x hx b hb)
    · obtain rfl : g = b := by simpa using hb
      exact (hArow a ha f rfl).trans hpid.symm
  · intro y hy
    rcases B with _ | ⟨b, B⟩
    · rw [List.append_nil, List.getLast?_append_of_ne_nil _ (List.cons_ne_nil _ _)] at hy
      refine (hnext x hx y hy).trans (hend x ?_)
      rwa [List.append_nil, List.getLast?_append_of_ne_nil _ (List.cons_ne_nil _ _)]
    · refine hend y ?_
      rw [List.getLast?_append_of_ne_nil _ (List.cons_ne_nil _ _)] at hy ⊢
      exact hy

/-- A leaf with other records. -/
theorem leaf (hpid : g.pid = f.pid) (hnext : g.next = f.next) : Relinks [f] [g] := by
  refine of_ends hpid (fun _ => List.isChain_singleton _) ?_
  rintro _ ⟨⟩ _ ⟨⟩
  exact hnext

/-- A leaf that is cut. -/
theorem cut (l : Leaf) {new next : PageId} (hnext : next = l.next) (u : Uninit) :
    Relinks [l] [l.lower new, l.upper new next u] := by
  refine of_ends rfl (fun _ => ?_) ?_
  · exact List.isChain_cons_cons.mpr ⟨rfl, List.isChain_singleton _⟩
  · rintro _ ⟨⟩ _ ⟨⟩
    exact hnext

/-- Two leaves that are joined. -/
theorem join (f g : Leaf) : Relinks [f, g] [f.join g g.next] := by
  refine of_ends rfl (fun _ => List.isChain_singleton _) ?_
  rintro _ ⟨⟩ _ ⟨⟩
  rfl

end Relinks

/-! ## Leaves of a tree -/

namespace Tree

variable {key : BTreeKey} {h h' : Nat}

/-- A tree of at most three levels. The root of one with three levels has two children. -/
def Low : {h : Nat} → Tree h → Prop
  | 0, _ => True
  | 1, _ => True
  | 2, b => (Branch.kids b).length = 1
  | _ + 3, _ => False

theorem relinks_setChild {b : Branch (Tree h)} {c : Tree h} (hc : Relinks (b.child key).leaves c.leaves) :
    Relinks (leaves (h := h + 1) b) (leaves (h := h + 1) (b.setChild key c)) := by
  have hb : leaves (h := h + 1) b =
      (b.left key).flatMap leaves ++ (b.child key).leaves ++ (b.right key).flatMap leaves := by
    show b.children.flatMap leaves = _
    rw [Branch.children_eq key b, List.flatMap_append, List.flatMap_cons, List.append_assoc]
  have hb' : leaves (h := h + 1) (b.setChild key c) =
      (b.left key).flatMap leaves ++ c.leaves ++ (b.right key).flatMap leaves := by
    show (b.setChild key c).children.flatMap leaves = _
    rw [Branch.children_setChild, List.flatMap_append, List.flatMap_cons, List.append_assoc]
  rw [hb, hb']
  exact hc.append _ _

theorem relinks_setLeaf {t : Tree h} {l : Leaf} (hpid : l.pid = (route key t).pid)
    (hnext : l.next = (route key t).next) : Relinks t.leaves (setLeaf key t l).leaves := by
  induction h with
  | zero => exact Relinks.leaf hpid hnext
  | succ h ih => exact relinks_setChild (ih hpid hnext)

theorem relinks_cutRoute {t : Tree (h + 1)} (hlast : (bottom key t).goesFirst key = false) (mid : BTreeKey)
    (new : PageId) (u : Uninit) : Relinks t.leaves (cutRoute key t mid new u).leaves := by
  induction h with
  | zero =>
    have ht : t.leaves = (Branch.kids t).map (·.1) ++ [Branch.last t] ++ [] := by
      rw [List.append_nil]
      exact leaves_two t
    have hcut : (cutRoute key t mid new u).leaves = (Branch.kids t).map (·.1) ++
        [(Branch.last t).lower new, (Branch.last t).upper new (Branch.last t).next u] ++ [] := by
      refine (leaves_two (cutLast t mid new u)).trans ?_
      simp [cutLast]
    rw [ht, hcut]
    exact (Relinks.cut _ rfl u).append _ _
  | succ h ih => exact relinks_setChild (ih hlast)

theorem leaves_cutBranch {b : Branch (Tree h)} {ks₁ ks₂ : List (Tree h × BTreeKey)} {c : Tree h}
    {mid : BTreeKey} (hks : b.kids = ks₁ ++ (c, mid) :: ks₂) (new root : PageId) (u w : Uninit) :
    (cutBranch b ks₁ c mid ks₂ new root u w).leaves = leaves (h := h + 1) b := by
  simp [cutBranch, leaves, Branch.children, hks]

theorem kids_length_setChild (key : BTreeKey) (b : Branch (Tree h)) (c : Tree h) :
    (b.setChild key c).kids.length = b.kids.length := by
  have hlen := congrArg List.length (Branch.setChild_keys key b c)
  rwa [Branch.keys, Branch.keys, List.length_map, List.length_map] at hlen

theorem Low.setLeaf {t : Tree h} (ht : Low t) (l : Leaf) : Low (setLeaf key t l) := by
  match h, t, ht with
  | 0, _, _ => trivial
  | 1, _, _ => trivial
  | 2, b, hb => exact (kids_length_setChild key b _).trans hb

theorem Low.cutRoute {t : Tree (h + 1)} (ht : Low t) (mid : BTreeKey) (new : PageId) (u : Uninit) :
    Low (cutRoute key t mid new u) := by
  match h, t, ht with
  | 0, _, _ => trivial
  | 1, b, hb => exact (kids_length_setChild key b _).trans hb

/-- What an insertion makes of the chain, unless it cuts the root. -/
theorem Recut.relinks {m : Nat} {t : Tree h} {t' : Tree h'} (hcut : Recut m key t t')
    (hroot : h = 0 → (route key t).records.length ≤ m) (hlow : Low t) :
    Relinks t.leaves t'.leaves ∧ Low t' := by
  cases hcut with
  | room => exact ⟨.refl _, hlow⟩
  | leaf hfull => exact absurd (hroot rfl) (Nat.not_le.mpr hfull)
  | last hfull hlast => exact ⟨relinks_cutRoute hlast _ _ _, hlow.cutRoute _ _ _⟩
  | branch hfull hlast hmid hks =>
    rw [leaves_cutBranch hks]
    exact ⟨relinks_cutRoute (h := 0) hlast _ _ _, rfl⟩

/-- A path in a stored tree is the route. -/
theorem Stored.route_of_path {v : View} {t : Tree h} (hs : Stored v t) {p : PageId} {leaf : BTreePage}
    {cs : List Crumb} (hpath : Path v key t.pid p leaf cs) :
    p = (route key t).pid ∧ leaf = (route key t).node ∧ cs = crumbs key t := by
  induction h generalizing cs with
  | zero =>
    obtain ⟨-, hn⟩ := hs.root
    generalize hq : t.pid = q at hpath hn
    cases hpath with
    | leaf _ hn' =>
      rw [hn] at hn'
      cases hn'
      exact ⟨hq.symm, rfl, rfl⟩
    | first _ hn' hv =>
      rw [hn] at hn'
      cases hn'
      cases hv
    | last _ hn' hv =>
      rw [hn] at hn'
      cases hn'
      cases hv
  | succ h ih =>
    obtain ⟨-, hn⟩ := hs.root
    have hchild : ∀ {cs}, Path v key (Branch.child key t).pid p leaf cs →
        p = (route key (Branch.child key t)).pid ∧ leaf = (route key (Branch.child key t)).node ∧
          cs = crumbs key (Branch.child key t) := fun hp => ih (hs.2.2 _ (Branch.child_mem key t)) hp
    rcases t with ⟨pid, flags, next, kids, last⟩
    generalize hq : Tree.pid (h := h + 1) ⟨pid, flags, next, kids, last⟩ = q at hpath hn
    obtain rfl : pid = q := hq
    cases hpath with
    | leaf _ hn' hl =>
      rw [hn] at hn'
      cases hn'
      cases hl
    | first _ hn' hv hk hlt hc rest =>
      rw [hn] at hn'
      cases hn'
      cases hv
      rcases kids with _ | ⟨⟨c, s⟩, ks⟩
      · cases hk
      · cases hk
        cases hc
        simp only [Branch.child, if_pos hlt] at hchild
        obtain ⟨hp, hl, rfl⟩ := hchild rest
        simp only [route, crumbs, Branch.child, Branch.goesFirst, hlt, decide_true]
        exact ⟨hp, hl, rfl⟩
    | last _ hn' hv hk hge _ rest =>
      rw [hn] at hn'
      cases hn'
      rcases kids with _ | ⟨⟨c, s⟩, ks⟩
      · cases hk
      · cases hk
        simp only [Branch.child, if_neg hge] at hchild
        obtain ⟨hp, hl, rfl⟩ := hchild rest
        simp only [route, crumbs, Branch.child, Branch.goesFirst, hge, decide_false]
        exact ⟨hp, hl, rfl⟩

end Tree

/-! ## Insertions -/

/-- The index is a tree with chained leaves. -/
def InChain (v : View) : Prop := ∃ (h : Nat) (t : Tree h), Held v t ∧ Low t ∧ Chained t.leaves

/-- The key is new to the leaf, and the leaf is full. -/
def overfills (t : BTree Disk) (key : BTreeKey) (leaf : BTreePage) : Bool :=
  (leaf.keys.all fun k => cmpKeys k key ≠ 0) && t.maxSize.toNat ≤ leaf.keys.length

/-- The middle key of the leaf with the key put in belongs behind all keys of the node above it. -/
def cutsAtEnd (key : BTreeKey) (leaf parent : BTreePage) : Bool :=
  ((putAt leaf.keys (placeIn key leaf.keys) key)[(leaf.keys.length + 1) / 2]?).all fun mid =>
    placeIn mid parent.keys = parent.keys.length

/-- If the insertion splits its leaf, this is the last one below its parent, which gets the middle key as its
last one; or it is the root, and the memory in which the right half is made holds 0 for `next`. -/
def splitsInChain (t : BTree Disk) (key : BTreeKey) : Bool :=
  match BTree.findLeaf key t with
  | (.ok (_, leaf, []), _) => !overfills t key leaf || (t.heap 0).next == 0
  | (.ok (_, leaf, top :: _), _) => !overfills t key leaf ||
      top.2 == -1 && (t.bpm.nodeAt top.1).any (cutsAtEnd key leaf)
  | _ => true

section Insert

variable {s s' : BTree Disk} {v : View} {key : BTreeKey} {val : RID} {h : Nat} {t : Tree h}

theorem overfills_iff (hs : Shows s v) {leaf : BTreePage} :
    overfills s key leaf = true ↔ Overfills v key leaf := by
  simp [overfills, Overfills, hs.maxSize]

/-- What the condition says for the leaf of the route. -/
theorem cuts_of_splitsInChain (hs : Shows s v) (ht : Held v t)
    (hpath : Path v key v.rootPid (route key t).pid (route key t).node (crumbs key t))
    (hsplit : splitsInChain s key = true) :
    CutsLast v key t ∧ CutsAtEnd v key t ∧
      (h = 0 → Overfills v key (route key t).node → (s.heap 0).next = 0) := by
  have hlen : (crumbs key t).length < 2 ^ 32 := by
    rw [crumbs_length]
    exact ht.stored.height_lt
  rw [splitsInChain, findLeaf_of_path hs hpath hlen] at hsplit
  cases h with
  | zero =>
    refine ⟨fun _ _ c hc => (nomatch hc), trivial, fun _ hover => ?_⟩
    rw [← overfills_iff hs] at hover
    have hcrumbs : crumbs key t = [] := rfl
    simpa [hcrumbs, hover] using hsplit
  | succ h =>
    obtain ⟨rest, hrest⟩ := crumbs_eq_cons key t
    have hcut : Overfills v key (route key t).node → (bottom key t).goesFirst key = false ∧
        cutsAtEnd key (route key t).node (node (h := 1) (bottom key t)) = true := by
      intro hover
      rw [← overfills_iff hs] at hover
      obtain ⟨h0, hn⟩ := (ht.stored.bottom key).root
      have hnode : s.bpm.nodeAt (bottom key t).pid = some (node (h := 1) (bottom key t)) :=
        (hs.node _ h0).trans hn
      simp only [hrest, hover, hnode, Bool.not_true, Bool.false_or, Option.any_some, Bool.and_eq_true,
        beq_iff_eq] at hsplit
      refine ⟨?_, hsplit.2⟩
      cases hg : (bottom key t).goesFirst key
      · rfl
      · rw [hg] at hsplit
        exact absurd hsplit.1 (by decide)
    refine ⟨fun hnew hfull c hc => ?_, ?_, fun h0 => absurd h0 (Nat.succ_ne_zero h)⟩
    · rw [hrest, (hcut ⟨hnew, hfull⟩).1] at hc
      cases hc
      rfl
    · intro hnew hfull i mid j hi hmid hj
      have hend := (hcut ⟨hnew, hfull⟩).2
      rw [cutsAtEnd, ← hi.2.2.2, hmid] at hend
      rw [hj.2.2.2]
      simp only [Option.all_some, decide_eq_true_eq] at hend
      exact hend

/-- An insertion keeps the leaves chained. -/
theorem Held.insert_inChain (hs : Shows s v) (htidy : v.Tidy) (hm : 2 ≤ v.maxSize.toNat) (ht : Held v t)
    (hlow : Low t) (hc : Chained t.leaves)
    (hpath : Path v key v.rootPid (route key t).pid (route key t).node (crumbs key t)) (hpos : 1 ≤ key.length)
    (hover : (∀ k ∈ (route key t).node.keys, cmpKeys k key ≠ 0) →
      NoInnerOverflow v (route key t).node (crumbs key t))
    (hsplit : splitsInChain s key = true) {r : PageId} (hrun : BTree.insert key val s = (.ok r, s'))
    (hfit : AllFit s') :
    ∃ v', Shows s' v' ∧ v'.Tidy ∧ v'.maxSize = v.maxSize ∧ InChain v' := by
  obtain ⟨hcuts, hend, hzero⟩ := cuts_of_splitsInChain hs ht hpath hsplit
  have hfit' : AllFit (BTree.insert key val s).2 := by rwa [hrun]
  have hlen : (crumbs key t).length < 2 ^ 32 := by
    rw [crumbs_length]
    exact ht.stored.height_lt
  by_cases hroot : h = 0 ∧ Overfills v key (route key t).node
  · -- the leaf that is the root is cut: its right half names what the memory held
    obtain ⟨rfl, hnew, hfull⟩ := hroot
    have hpath' : Path v key v.rootPid v.rootPid (Tree.node (h := 0) t) [] := by
      have hpid : v.rootPid = Leaf.pid t := ht.root
      rw [hpid] at hpath ⊢
      exact hpath
    obtain ⟨i, mid, w, -, -, hcount, hs'⟩ :=
      insert_splitRoot hs hpath' hnew hfull hpos hfit' hrun
    have hnode : (Tree.node (h := 0) t).addRecord i key val = (Leaf.add t i key val).node :=
      (Leaf.node_add t i key val).symm
    rw [hnode] at hs'
    have hcut := ht.splitRoot (l := Leaf.add t i key val) hs.sound htidy.packed hcount rfl mid (s.heap 0) w
    refine ⟨_, hs', htidy.splitRoot hcount _ _ _ _, rfl, 1, _, hcut, trivial, ?_⟩
    have hnext : (s.heap 0).next = Leaf.next t := (hzero rfl ⟨hnew, hfull⟩).trans (hc.2 t rfl).symm
    have hrelinks : Relinks [t] [Leaf.add t i key val] := .leaf rfl rfl
    exact (hrelinks.trans (Relinks.cut (Leaf.add t i key val) hnext _)).chained hc
  · rcases insert_step hs htidy.packed hpath hlen hpos hover hfit' with ⟨r', s₁, v', hr, hs', hstep⟩ | ⟨hfail, -⟩
    · rw [hrun] at hr
      cases hr
      obtain ⟨htidy', hmax⟩ := hstep.tidy htidy
      refine ⟨v', hs', htidy', hmax, ?_⟩
      rcases hstep.recut hs.sound htidy.packed hm ht hcuts hend with
        ⟨-, rfl, -⟩ | ⟨-, hnew, i, h', t', hi, hcut, ht'⟩
      · exact ⟨h, t, ht, hlow, hc⟩
      · have hset : Relinks t.leaves (Tree.setLeaf key t ((route key t).add i key val)).leaves :=
          relinks_setLeaf rfl rfl
        have hroom : h = 0 →
            (route key (Tree.setLeaf key t ((route key t).add i key val))).records.length ≤ v.maxSize.toNat := by
          intro h0
          have hnot : ¬ v.maxSize.toNat ≤ (route key t).node.keys.length := fun hle => hroot ⟨h0, hnew, hle⟩
          rw [route_setLeaf, Leaf.length_add hi]
          omega
        obtain ⟨hlinks, hlow'⟩ := hcut.relinks hroom (hlow.setLeaf _)
        exact ⟨h', t', ht', hlow', (hset.trans hlinks).chained hc⟩
    · exact absurd hrun hfail.ne_ok

end Insert

end SomeDB
