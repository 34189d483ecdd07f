import SomeDB.Index.SortedInsert
import SomeDB.Index.Capacity

/-!
# Insertions grow a tree

`Recut m key t t'`: what an insertion makes of the tree `t` that already has the new record in the leaf
of its search. If the leaf has at most `m` keys nothing is left to do. If not, the leaf is cut, and with
it the branch above, when that is the root and has `m` keys already. A leaf that is cut is the last one
below its branch: for any other leaf, `splitNonRootNode` gives the parent the old leaf twice and the
new one never.

`Recut.sorted`: none of it changes the records or their order. `InsertStep.recut`: what `insert` writes
to the pages stores the tree.
-/

namespace SomeDB

open Lib

namespace Branch

variable {α : Type} {key : BTreeKey}

theorem goesFirst_setChild (b : Branch α) (c : α) :
    (b.setChild key c).goesFirst key = b.goesFirst key := by
  rcases b with ⟨pid, flags, next, _ | ⟨⟨d, s⟩, ks⟩, last⟩
  · rfl
  · by_cases h : BTreeKey.Lt key s <;> simp [setChild, goesFirst, h]

@[simp] theorem child_setChild (b : Branch α) (c : α) : (b.setChild key c).child key = c := by
  rcases b with ⟨pid, flags, next, _ | ⟨⟨d, s⟩, ks⟩, last⟩
  · rfl
  · by_cases h : BTreeKey.Lt key s <;> simp [setChild, child, h]

theorem child_of_last {b : Branch α} (h : b.goesFirst key = false) : b.child key = b.last := by
  rcases b with ⟨pid, flags, next, _ | ⟨⟨d, s⟩, ks⟩, last⟩
  · rfl
  · have hlt : ¬ BTreeKey.Lt key s := by simpa [goesFirst] using h
    simp [child, hlt]

theorem setChild_of_last {b : Branch α} (h : b.goesFirst key = false) (c : α) :
    b.setChild key c = { b with last := c } := by
  rcases b with ⟨pid, flags, next, _ | ⟨⟨d, s⟩, ks⟩, last⟩
  · rfl
  · have hlt : ¬ BTreeKey.Lt key s := by simpa [goesFirst] using h
    simp [setChild, hlt]

/-- The first child. -/
theorem child_of_first {b : Branch α} (h : b.goesFirst key = true) :
    ∃ c s ks, b.kids = (c, s) :: ks ∧ b.child key = c := by
  rcases b with ⟨pid, flags, next, _ | ⟨⟨c, s⟩, ks⟩, last⟩
  · cases h
  · have hlt : BTreeKey.Lt key s := by simpa [goesFirst] using h
    exact ⟨c, s, ks, rfl, by simp [child, hlt]⟩

end Branch

namespace Tree

/-! ## The branch above the leaf -/

/-- The branch above the leaf that the search for `key` ends at. -/
def bottom (key : BTreeKey) : {h : Nat} → Tree (h + 1) → Branch Leaf
  | 0, b => b
  | _ + 1, b => bottom key (Branch.child key b)

/-- The tree with that leaf, the last of its branch, cut in two. -/
def cutRoute (key : BTreeKey) : {h : Nat} → Tree (h + 1) → BTreeKey → PageId → Uninit → Tree (h + 1)
  | 0, b, mid, new, u => cutLast b mid new u
  | _ + 1, b, mid, new, u => Branch.setChild key b (cutRoute key (Branch.child key b) mid new u)

variable {key : BTreeKey}

theorem route_eq_child {h : Nat} (t : Tree (h + 1)) : route key t = (bottom key t).child key := by
  induction h with
  | zero => rfl
  | succ h ih => exact ih (Branch.child key t)

theorem route_eq_last {h : Nat} {t : Tree (h + 1)} (hlast : (bottom key t).goesFirst key = false) :
    route key t = (bottom key t).last :=
  (route_eq_child t).trans (Branch.child_of_last hlast)

theorem crumbs_eq_cons (key : BTreeKey) {h : Nat} (t : Tree (h + 1)) :
    ∃ rest, crumbs key t =
      ((bottom key t).pid, if (bottom key t).goesFirst key then 0 else -1) :: rest := by
  induction h with
  | zero => exact ⟨[], rfl⟩
  | succ h ih =>
    obtain ⟨rest, hrest⟩ := ih (Branch.child key t)
    exact ⟨rest ++ [_], by rw [crumbs, hrest]; rfl⟩

theorem route_setLeaf {h : Nat} (t : Tree h) (l : Leaf) : route key (setLeaf key t l) = l := by
  induction h with
  | zero => rfl
  | succ h ih =>
    show route key (Branch.child key (Branch.setChild key t _)) = l
    rw [Branch.child_setChild, ih]

theorem bottom_setLeaf (key : BTreeKey) {h : Nat} (t : Tree (h + 1)) (l : Leaf) :
    bottom key (setLeaf key t l) = (bottom key t).setChild key l := by
  induction h with
  | zero => rfl
  | succ h ih =>
    show bottom key (Branch.child key (Branch.setChild key t _)) = _
    rw [Branch.child_setChild, ih]
    rfl

theorem Stored.bottom (key : BTreeKey) {v : View} {h : Nat} {t : Tree (h + 1)} (hs : Stored v t) :
    Stored (h := 1) v (bottom key t) := by
  induction h with
  | zero => exact hs
  | succ h ih => exact ih (hs.2.2 _ (Branch.child_mem key t))

/-! ## What an insertion makes of a tree -/

inductive Recut (m : Nat) (key : BTreeKey) : {h h' : Nat} → Tree h → Tree h' → Prop
  | room {h : Nat} {t : Tree h} (hroom : (route key t).records.length ≤ m) : Recut m key t t
  | leaf {l : Leaf} {mid : BTreeKey} {new root : PageId} {u w : Uninit}
    (hfull : m < l.records.length) (hmid : (l.records.map (·.1))[l.records.length / 2]? = some mid) :
    Recut m key (h := 0) l (cutLeaf l mid new root u w)
  | last {h : Nat} {t : Tree (h + 1)} {mid : BTreeKey} {new : PageId} {u : Uninit}
    (hfull : m < (route key t).records.length) (hlast : (bottom key t).goesFirst key = false)
    (hmid : ((route key t).records.map (·.1))[(route key t).records.length / 2]? = some mid) :
    Recut m key t (cutRoute key t mid new u)
  | branch {b : Branch Leaf} {mid mid' : BTreeKey} {new new' root : PageId} {u u' w : Uninit}
    {ks₁ ks₂ : List (Leaf × BTreeKey)} {c : Leaf}
    (hfull : m < b.last.records.length) (hlast : b.goesFirst key = false)
    (hmid : (b.last.records.map (·.1))[b.last.records.length / 2]? = some mid)
    (hks : (cutLast b mid new u).kids = ks₁ ++ (c, mid') :: ks₂) (h₁ : ks₁ ≠ []) (h₂ : ks₂ ≠ []) :
    Recut m key (h := 1) b (cutBranch (cutLast b mid new u) ks₁ c mid' ks₂ new' root u' w)

section Sorted

variable {K : BTreeKey → Prop}

theorem Sorted.cutRoute (hK : TotalOn K) {h : Nat} {t : Tree (h + 1)} (ht : Sorted K t)
    (hlast : (bottom key t).goesFirst key = false) {mid : BTreeKey}
    (hlen : 2 ≤ (route key t).records.length)
    (hmid : ((route key t).records.map (·.1))[(route key t).records.length / 2]? = some mid)
    (new : PageId) (u : Uninit) :
    Sorted K (cutRoute key t mid new u) ∧ (Tree.cutRoute key t mid new u).records = t.records := by
  induction h with
  | zero =>
    have hroute : route key t = Branch.last t := route_eq_last hlast
    rw [hroute] at hlen hmid
    exact ⟨Sorted.cutLast hK ht hlen hmid new u, records_cutLast t mid new u⟩
  | succ h ih =>
    obtain ⟨hc, hr⟩ := ih (ht.child (Branch.child_mem key t)) hlast hlen hmid
    have hself := Branch.setChild_child key t
    refine ⟨Sorted.setChild (c := Branch.child key t) (hself.symm ▸ ht) hc hr, ?_⟩
    exact (records_setChild key t hr).trans (congrArg _ hself)

theorem Sorted.bottom (key : BTreeKey) {h : Nat} {t : Tree (h + 1)} (ht : Sorted K t) :
    Sorted (h := 1) K (bottom key t) := by
  induction h with
  | zero => exact ht
  | succ h ih => exact ih (ht.child (Branch.child_mem key t))

/-- Cutting nodes keeps the records and their order. -/
theorem Recut.sorted {m : Nat} (hm : 2 ≤ m) (hK : TotalOn K) {h h' : Nat} {t : Tree h} {t' : Tree h'}
    (hcut : Recut m key t t') (ht : Sorted K t) : Sorted K t' ∧ t'.records = t.records := by
  cases hcut with
  | room => exact ⟨ht, rfl⟩
  | leaf _ hmid => exact ⟨ht.cutLeaf hmid .., (records_cutLeaf ..).trans (records_leaf _).symm⟩
  | last hfull hlast hmid => exact ht.cutRoute hK hlast (by omega) hmid ..
  | branch hfull hlast hmid hks h₁ h₂ =>
    exact ⟨(Sorted.cutLast hK ht (by omega) hmid _ _).cutBranch hks h₁ h₂ ..,
      (records_cutBranch hks ..).trans (records_cutLast ..)⟩

end Sorted

/-! ## The pages of what is cut -/

section Pages

theorem cutRoute_pid {h : Nat} (t : Tree (h + 1)) (mid : BTreeKey) (new : PageId) (u : Uninit) :
    (cutRoute key t mid new u).pid = t.pid := by
  cases h with
  | zero => rfl
  | succ h => exact Branch.setChild_pid ..

theorem bottom_pid_mem {h : Nat} (t : Tree (h + 1)) : (bottom key t).pid ∈ t.pages := by
  induction h with
  | zero => exact List.mem_cons_self ..
  | succ h ih =>
    exact List.mem_cons_of_mem _ (List.mem_flatMap.mpr ⟨_, Branch.child_mem key t, ih _⟩)

theorem pages_cutLeaf (l : Leaf) (mid : BTreeKey) (new root : PageId) (u w : Uninit) :
    (cutLeaf l mid new root u w).pages = [root, l.pid, new] := rfl

theorem pages_cutLast (b : Branch Leaf) (mid : BTreeKey) (new : PageId) (u : Uninit) :
    (cutLast b mid new u).pages.Perm (new :: pages (h := 1) b) := by
  have : (cutLast b mid new u).pages = pages (h := 1) b ++ [new] := by
    simp [pages, cutLast, Branch.children, Leaf.lower, Leaf.upper]
  rw [this]
  exact List.perm_append_singleton ..

theorem pages_cutRoute {h : Nat} (t : Tree (h + 1)) (mid : BTreeKey) (new : PageId) (u : Uninit) :
    (cutRoute key t mid new u).pages.Perm (new :: t.pages) := by
  induction h with
  | zero => exact pages_cutLast ..
  | succ h ih =>
    have h₁ : pages (h := h + 2) (cutRoute key t mid new u) = Branch.pid t ::
        ((Branch.left key t).flatMap pages ++
          (pages (cutRoute key (Branch.child key t) mid new u) ++ (Branch.right key t).flatMap pages)) := by
      show (Branch.setChild key t _).pid :: (Branch.setChild key t _).children.flatMap pages = _
      rw [Branch.setChild_pid, Branch.children_setChild, List.flatMap_append, List.flatMap_cons]
    have h₂ : pages (h := h + 2) t = Branch.pid t :: ((Branch.left key t).flatMap pages ++
        (pages (Branch.child key t) ++ (Branch.right key t).flatMap pages)) := by
      show Branch.pid t :: (Branch.children t).flatMap pages = _
      rw [Branch.children_eq key t, List.flatMap_append, List.flatMap_cons]
    rw [h₁, h₂]
    refine (List.Perm.cons _ (((ih _).append_right _).append_left _)).trans ?_
    refine (List.Perm.cons _ List.perm_middle).trans (List.Perm.swap ..)

theorem pages_cutBranch {h : Nat} {b : Branch (Tree h)} {ks₁ ks₂ : List (Tree h × BTreeKey)} {c : Tree h}
    {mid : BTreeKey} (hks : b.kids = ks₁ ++ (c, mid) :: ks₂) (new root : PageId) (u w : Uninit) :
    (cutBranch b ks₁ c mid ks₂ new root u w).pages.Perm (root :: new :: pages (h := h + 1) b) := by
  have h₁ : (cutBranch b ks₁ c mid ks₂ new root u w).pages =
      root :: b.pid :: ((ks₁.map (·.1)).flatMap pages ++ c.pages) ++
        new :: ((ks₂.map (·.1)).flatMap pages ++ b.last.pages) := by
    simp [pages, cutBranch, Branch.children]
  have h₂ : pages (h := h + 1) b = b.pid :: ((ks₁.map (·.1)).flatMap pages ++ c.pages) ++
      ((ks₂.map (·.1)).flatMap pages ++ b.last.pages) := by
    simp [pages, Branch.children, hks]
  rw [h₁, h₂, List.cons_append]
  exact List.Perm.cons _ List.perm_middle

end Pages

/-! ## Storing what is cut -/

section Stored

variable {v : View}

theorem node_cutLast (b : Branch Leaf) (mid : BTreeKey) (new : PageId) (u : Uninit) :
    (cutLast b mid new u).node =
      (node (h := 1) b).addChild b.keys.length mid b.last.pid new := by
  have hpids : putAt (b.kids.map (·.1.pid)) b.keys.length b.last.pid =
      b.kids.map (·.1.pid) ++ [b.last.pid] := by
    have hlen : b.keys.length = (b.kids.map (·.1.pid)).length := by simp [Branch.keys]
    rw [hlen, putAt_end]
  have hvalues : (node (h := 1) b).values = .children (b.kids.map (·.1.pid)) := rfl
  simp only [BTreePage.addChild, hvalues]
  have hkeys : putAt (node (h := 1) b).keys b.keys.length mid = b.keys ++ [mid] := putAt_end ..
  simp only [hkeys, hpids, List.getLast?_append, List.getLast?_singleton, Option.some_or, if_true]
  simp [node, cutLast, Branch.keys, Leaf.lower, Leaf.upper, pid]

theorem Stored.cutLast {b : Branch Leaf} (hs : Stored (h := 1) v b) (hn : (pages (h := 1) b).Nodup)
    (hid : v.newId ≠ 0) (hfresh : v.newId ∉ pages (h := 1) b) (mid : BTreeKey) (u : Uninit) :
    Stored (v.splitLeaf b.last.pid b.last.node b.pid (cutLast b mid v.newId u).node u)
      (cutLast b mid v.newId u) := by
  have hpages : pages (h := 1) b = b.pid :: (b.kids.map (·.1.pid) ++ [b.last.pid]) := by
    simp only [pages, Branch.children, List.flatMap_append, List.flatMap_map, List.flatMap_cons,
      List.flatMap_nil, List.append_nil]
    rw [List.map_eq_flatMap]
  obtain ⟨h0, -, hkids⟩ := hs
  rw [hpages, List.nodup_cons, List.nodup_append] at hn
  rw [hpages] at hfresh
  simp only [List.mem_cons, List.mem_append, List.mem_map, List.not_mem_nil, or_false, not_or,
    not_exists, not_and] at hn hfresh
  obtain ⟨⟨hb, hbl⟩, -, -, hdisj⟩ := hn
  obtain ⟨hidb, hidk, hidl⟩ := hfresh
  have hlast : b.last ∈ b.children := List.mem_append_right _ (List.mem_singleton.mpr rfl)
  refine ⟨h0, View.splitLeaf_node_parent v _ _ u hbl (Ne.symm hidb), ?_⟩
  intro c hc
  simp only [Tree.cutLast, Branch.children, List.map_append, List.map_cons, List.map_nil,
    List.mem_append, List.mem_map, List.mem_singleton] at hc
  rcases hc with (⟨d, hd, rfl⟩ | rfl) | rfl
  · have hdc : d.1 ∈ b.children := List.mem_append_left _ (List.mem_map_of_mem hd)
    refine ⟨(hkids _ hdc).1, (View.splitLeaf_node_ne v _ _ u ?_ ?_ ?_).trans (hkids _ hdc).2⟩
    · exact hdisj _ ⟨d, hd, rfl⟩ _ rfl
    · exact fun he => hidk d hd he
    · exact fun he => hb d hd he
  · refine ⟨(hkids _ hlast).1, ?_⟩
    rw [Leaf.node_lower]
    exact View.splitLeaf_node_leaf ..
  · refine ⟨hid, ?_⟩
    rw [Leaf.node_upper]
    exact View.splitLeaf_node_new v _ _ u hidl

/-- Cutting the leaf at the end of the route. -/
theorem Stored.cutRoute {h : Nat} {t : Tree (h + 1)} (hs : Stored v t) (hn : t.pages.Nodup)
    (hlast : (Tree.bottom key t).goesFirst key = false) (hid : v.newId ≠ 0)
    (hfresh : v.newId ∉ t.pages) (mid : BTreeKey) (u : Uninit) :
    Stored (v.splitLeaf (route key t).pid (route key t).node (Tree.bottom key t).pid
      (Tree.cutLast (Tree.bottom key t) mid v.newId u).node u) (cutRoute key t mid v.newId u) := by
  induction h with
  | zero =>
    have hroute : route key t = Branch.last t := route_eq_last hlast
    rw [hroute]
    exact Stored.cutLast hs hn hid hfresh mid u
  | succ h ih =>
    obtain ⟨hroot, hchild, -⟩ := nodup_branch hn key
    have hsub : ∀ p ∈ pages (Branch.child key t), p ∈ pages (h := h + 2) t := fun p hp =>
      List.mem_cons_of_mem _ (List.mem_flatMap.mpr ⟨_, Branch.child_mem key t, hp⟩)
    have hc := ih (hs.2.2 _ (Branch.child_mem key t)) hchild hlast fun h => hfresh (hsub _ h)
    refine Stored.setChild hs hn hc (cutRoute_pid ..) fun p hp hpc => ?_
    refine View.splitLeaf_node_ne v _ _ _ ?_ ?_ ?_
    · rintro rfl; exact hpc (route_pid_mem key _)
    · rintro rfl; exact hfresh hp
    · rintro rfl; exact hpc (bottom_pid_mem _)

section Root

variable (hid : v.newId ≠ 0) (hid' : ∀ b, (v.addPage b).newId ≠ 0)
  (hne : ∀ b, v.newId ≠ (v.addPage b).newId)

include hid hid' hne

theorem Stored.cutLeaf {l : Leaf} (hs : Stored (h := 0) v l) (hroot : v.rootPid = l.pid)
    (hfresh : v.newId ≠ l.pid) (hfresh' : ∀ b, (v.addPage b).newId ≠ l.pid) (mid : BTreeKey)
    (u w : Uninit) :
    Stored (v.splitRoot l.node mid u w) (cutLeaf l mid v.newId (v.addPage true).newId u w) := by
  rw [← hroot] at hfresh hfresh'
  refine ⟨hid' true, ?_, ?_⟩
  · refine (View.splitRoot_node_root v l.node mid u w (hfresh' true)).trans ?_
    rw [hroot]
    rfl
  · intro c hc
    simp only [Tree.cutLeaf, Branch.children, List.map_cons, List.map_nil, List.mem_append,
      List.mem_singleton] at hc
    rcases hc with rfl | rfl
    · refine ⟨hs.1, ?_⟩
      rw [Leaf.node_lower]
      have := View.splitRoot_node_old v l.node mid u w
      rwa [hroot] at this
    · refine ⟨hid, ?_⟩
      rw [Leaf.node_upper]
      exact View.splitRoot_node_new v l.node mid u w hfresh (hne true)

/-- Cutting the branch that is the root. -/
theorem Stored.cutBranch {h : Nat} {b : Branch (Tree h)} (hs : Stored (h := h + 1) v b)
    (hn : (pages (h := h + 1) b).Nodup) (hroot : v.rootPid = b.pid)
    (hfresh : v.newId ∉ pages (h := h + 1) b) (hfresh' : ∀ i, (v.addPage i).newId ∉ pages (h := h + 1) b)
    {ks₁ ks₂ : List (Tree h × BTreeKey)} {c : Tree h} {mid : BTreeKey}
    (hks : b.kids = ks₁ ++ (c, mid) :: ks₂) (hlen : ks₁.length = b.kids.length / 2) (u w : Uninit) :
    Stored (v.splitRoot (node (h := h + 1) b) mid u w)
      (cutBranch b ks₁ c mid ks₂ v.newId (v.addPage false).newId u w) := by
  have hb : b.pid ∈ pages (h := h + 1) b := List.mem_cons_self ..
  have hbid : v.newId ≠ v.rootPid := fun he => hfresh (he ▸ hroot ▸ hb)
  have hbid' : (v.addPage false).newId ≠ v.rootPid := fun he => hfresh' false (he ▸ hroot ▸ hb)
  have hkeep : ∀ d ∈ b.children, Stored (v.splitRoot (node (h := h + 1) b) mid u w) d := by
    intro d hd
    refine (hs.2.2 d hd).congr fun p hp => ?_
    have hp' : p ∈ (b.children).flatMap pages := List.mem_flatMap.mpr ⟨d, hd, hp⟩
    refine View.splitRoot_node_ne v _ mid u w ?_ ?_ ?_
    · rintro rfl
      exact (List.nodup_cons.mp hn).1 (hroot ▸ hp')
    · rintro rfl
      exact hfresh (List.mem_cons_of_mem _ hp')
    · rintro rfl
      exact hfresh' _ (List.mem_cons_of_mem _ hp')
  have hkeys : b.keys.length / 2 = ks₁.length := by simp [Branch.keys, hlen]
  have hget : (b.kids.map (·.1.pid)).getD ks₁.length 0 = c.pid := by simp [hks]
  refine ⟨hid' false, ?_, ?_⟩
  · refine (View.splitRoot_node_root v _ mid u w hbid').trans ?_
    rw [hroot]
    rfl
  · intro d hd
    simp only [Tree.cutBranch, Branch.children, List.map_cons, List.map_nil, List.mem_append,
      List.mem_singleton] at hd
    rcases hd with rfl | rfl
    · refine ⟨hs.1, ?_, fun e he => hkeep e ?_⟩
      · have := View.splitRoot_node_old v (node (h := h + 1) b) mid u w
        rw [hroot] at this
        refine this.trans (congrArg some ?_)
        simp only [BTreePage.lowerHalf, node, hkeys, hget]
        simp [Branch.keys, hks]
      · simp only [Branch.children, hks, List.map_append, List.map_cons, List.mem_append,
          List.mem_cons, List.not_mem_nil, or_false] at he ⊢
        tauto
    · refine ⟨hid, ?_, fun e he => hkeep e ?_⟩
      · have := View.splitRoot_node_new v (node (h := h + 1) b) mid u w hbid (hne _)
        refine this.trans (congrArg some ?_)
        simp only [BTreePage.upperHalf, node, hkeys]
        simp [Branch.keys, hks, BTreePage.new, List.drop_append]
      · simp only [Branch.children, hks, List.map_append, List.map_cons, List.mem_append,
          List.mem_cons, List.not_mem_nil, or_false] at he ⊢
        tauto

end Root

end Stored

end Tree

/-! ## The step -/

namespace View

variable {v : View}

theorem Sound.put (h : v.Sound) {p : PageId} (hp : v.live p = true) (n : BTreePage) : (v.put p n).Sound := by
  intro q m h0 hq
  by_cases hqp : q = p
  · exact hqp ▸ hp
  · rw [put_node_ne _ _ hqp] at hq
    exact h q m h0 hq

/-- A split of a leaf overwrites the leaf. -/
theorem put_splitLeaf (v : View) (p c : PageId) (n n' parent : BTreePage) (u : Uninit) :
    (v.put p n').splitLeaf p n c parent u = v.splitLeaf p n c parent u := by
  simp only [splitLeaf, put, addPage, newId, mk.injEq, true_and, and_true]
  funext q
  by_cases h : q = p <;> simp [h]

/-- A split of the root overwrites the root. -/
theorem put_splitRoot (v : View) (n n' : BTreePage) (mid : BTreeKey) (u w : Uninit) :
    (v.put v.rootPid n').splitRoot n mid u w = v.splitRoot n mid u w := by
  simp only [splitRoot, put, addPage, newId, syncMeta, mk.injEq, true_and, and_true]
  funext q
  by_cases h : q = v.rootPid <;> simp [h]

end View

/-- The index is the tree `t`. -/
structure Held (v : View) {h : Nat} (t : Tree h) : Prop where
  root : v.rootPid = t.pid
  stored : t.Stored v
  nodup : t.pages.Nodup

namespace Held

open SomeDB.Tree

variable {v : View} {key : BTreeKey}

/-- What is read of the index. -/
theorem readIndex {s : BTree Disk} (hs : Shows s v) {h : Nat} {t : Tree h} (ht : Held v t) (hh : h < 2 ^ 32) :
    SomeDB.readIndex s.bpm s.rootPid = some (t.items 0) := by
  rw [SomeDB.readIndex, hs.rootPid, if_neg (ht.root ▸ ht.stored.root.1), ht.root, ht.stored.inorder hs hh]

theorem readRecords {s : BTree Disk} (hs : Shows s v) {h : Nat} {t : Tree h} (ht : Held v t) (hh : h < 2 ^ 32) :
    SomeDB.readRecords s.bpm s.rootPid = some t.records := by
  rw [SomeDB.readRecords, ht.readIndex hs hh, Option.map_some, records_items]

theorem live (hs : v.Sound) {h : Nat} {t : Tree h} (hst : Stored v t) :
    ∀ p ∈ t.pages, v.live p = true := by
  induction h with
  | zero =>
    intro p hp
    obtain rfl := List.mem_singleton.mp hp
    exact hs _ _ hst.1 hst.2
  | succ h ih =>
    intro p hp
    rcases List.mem_cons.mp hp with rfl | hp
    · exact hs _ _ hst.1 hst.2.1
    · obtain ⟨c, hc, hp⟩ := List.mem_flatMap.mp hp
      exact ih (hst.2.2 c hc) p hp

variable {h : Nat} {t : Tree h}

theorem newId_not_mem (ht : Held v t) (hs : v.Sound) (hpk : v.Packed)
    (hcount : v.diskCount.toNat + 1 < 65536) : v.newId ∉ t.pages := fun hp =>
  hpk.ne_newId (View.newId_ne_zero hcount) (live hs ht.stored _ hp) rfl

theorem addPage_newId_not_mem (ht : Held v t) (hs : v.Sound) (hpk : v.Packed)
    (hcount : v.diskCount.toNat + 2 < 65536) (b : Bool) : (v.addPage b).newId ∉ t.pages := fun hp =>
  (hpk.addPage (View.newId_ne_zero (by omega)) b).ne_newId (View.addPage_newId_ne_zero hcount b)
    (View.addPage_live (live hs ht.stored _ hp)) rfl

theorem setLeaf (ht : Held v t) {l : Leaf} (hl : l.pid = (route key t).pid) :
    Held (v.put l.pid l.node) (setLeaf key t l) :=
  ⟨ht.root.trans (setLeaf_pid t hl).symm, ht.stored.setLeaf ht.nodup hl,
    (setLeaf_pages t hl).symm ▸ ht.nodup⟩

theorem cutLeaf {l : Leaf} (ht : Held (h := 0) v l) (hs : v.Sound) (hpk : v.Packed)
    (hcount : v.diskCount.toNat + 2 < 65536) (mid : BTreeKey) (u w : Uninit) :
    Held (v.splitRoot l.node mid u w) (cutLeaf l mid v.newId (v.addPage true).newId u w) := by
  have hf := ht.newId_not_mem hs hpk (by omega)
  have hf' := fun b => ht.addPage_newId_not_mem hs hpk hcount b
  have hne := fun b => View.newId_ne_newId hcount b
  simp only [pages, List.mem_singleton] at hf hf'
  refine ⟨rfl, Stored.cutLeaf (View.newId_ne_zero (by omega)) (View.addPage_newId_ne_zero hcount) hne
    ht.stored ht.root hf hf' mid u w, ?_⟩
  rw [pages_cutLeaf]
  simp [hf' true, Ne.symm (hne true), Ne.symm hf]

theorem cutRoute {t : Tree (h + 1)} (ht : Held v t) (hs : v.Sound) (hpk : v.Packed)
    (hcount : v.diskCount.toNat + 1 < 65536) (hlast : (bottom key t).goesFirst key = false)
    (mid : BTreeKey) (u : Uninit) :
    Held (v.splitLeaf (route key t).pid (route key t).node (bottom key t).pid
      (cutLast (bottom key t) mid v.newId u).node u) (cutRoute key t mid v.newId u) := by
  have hf := ht.newId_not_mem hs hpk hcount
  refine ⟨ht.root.trans (cutRoute_pid ..).symm,
    ht.stored.cutRoute ht.nodup hlast (View.newId_ne_zero hcount) hf mid u, ?_⟩
  exact (pages_cutRoute ..).symm.nodup (List.nodup_cons.mpr ⟨hf, ht.nodup⟩)

theorem cutBranch {b : Branch (Tree h)} (ht : Held (h := h + 1) v b) (hs : v.Sound) (hpk : v.Packed)
    (hcount : v.diskCount.toNat + 2 < 65536) {ks₁ ks₂ : List (Tree h × BTreeKey)} {c : Tree h}
    {mid : BTreeKey} (hks : b.kids = ks₁ ++ (c, mid) :: ks₂) (hlen : ks₁.length = b.kids.length / 2)
    (u w : Uninit) :
    Held (v.splitRoot (node (h := h + 1) b) mid u w)
      (cutBranch b ks₁ c mid ks₂ v.newId (v.addPage false).newId u w) := by
  have hf := ht.newId_not_mem hs hpk (by omega)
  have hf' := fun b => ht.addPage_newId_not_mem hs hpk hcount b
  have hne := fun b => View.newId_ne_newId hcount b
  refine ⟨rfl, Stored.cutBranch (View.newId_ne_zero (by omega)) (View.addPage_newId_ne_zero hcount) hne
    ht.stored ht.nodup ht.root hf hf' hks hlen u w, ?_⟩
  refine (pages_cutBranch hks ..).symm.nodup ?_
  simp only [List.nodup_cons, List.mem_cons, not_or]
  exact ⟨⟨(hne false).symm, hf' false⟩, hf, ht.nodup⟩

end Held

section Step

open SomeDB.Tree

variable {v v' : View} {K : BTreeKey → Prop} {key : BTreeKey} {val : RID} {h : Nat} {t : Tree h}

theorem Leaf.keys_add (l : Leaf) (i : Nat) (key : BTreeKey) (val : RID) :
    (l.add i key val).records.map (·.1) = putAt l.node.keys i key := putAt_map ..

theorem Leaf.length_add {l : Leaf} {i : Nat} (hi : PlaceOf key l.node.keys i) (val : RID) :
    (l.add i key val).records.length = l.node.keys.length + 1 := by
  rw [← List.length_map (·.1), l.keys_add, putAt_length _ _ hi.1]

/-- The middle key of a full leaf that got a record. -/
theorem Leaf.mid_add {l : Leaf} {i : Nat} {mid : BTreeKey} (hi : PlaceOf key l.node.keys i)
    (hmid : (putAt l.node.keys i key)[(l.node.keys.length + 1) / 2]? = some mid) (val : RID) :
    ((l.add i key val).records.map (·.1))[(l.add i key val).records.length / 2]? = some mid := by
  rwa [Leaf.keys_add, Leaf.length_add hi]

/-- A separator above all others is put in last. -/
theorem PlaceOf.eq_length {keys : List BTreeKey} {j : Nat} (hj : PlaceOf key keys j)
    (habove : ∀ s ∈ keys, BTreeKey.Lt s key) : j = keys.length := by
  obtain ⟨hle, -, hhi, -⟩ := hj
  rcases Nat.lt_or_eq_of_le hle with hlt | rfl
  · have h₁ := hhi _ (List.getElem?_eq_getElem hlt)
    exact absurd (habove _ (List.getElem_mem hlt)) (BTreeKey.cmpKeys_nonpos.mp h₁)
  · rfl

theorem exists_eq_append_of_getElem? {α β : Type} {xs : List (α × β)} {n : Nat} {y : β}
    (h : (xs.map (·.2))[n]? = some y) : ∃ ks₁ x ks₂, xs = ks₁ ++ (x, y) :: ks₂ ∧ ks₁.length = n := by
  obtain ⟨hlt, rfl⟩ := List.getElem?_eq_some_iff.mp h
  rw [List.length_map] at hlt
  refine ⟨xs.take n, xs[n].1, xs.drop (n + 1), ?_, by rw [List.length_take]; omega⟩
  rw [List.getElem_map, ← List.drop_eq_getElem_cons hlt, List.take_append_drop]

/-- A full leaf of the search is the last one below its branch. -/
def CutsLast (v : View) (key : BTreeKey) {h : Nat} (t : Tree h) : Prop :=
  (∀ k ∈ (route key t).node.keys, cmpKeys k key ≠ 0) →
    v.maxSize.toNat ≤ (route key t).node.keys.length → ∀ c ∈ (crumbs key t).head?, c.2 = -1

/-- The separator that a cut of a full leaf puts into the branch above is put in last. -/
def CutsAtEnd (v : View) (key : BTreeKey) : {h : Nat} → Tree h → Prop
  | 0, _ => True
  | _ + 1, t => (∀ k ∈ (route key t).node.keys, cmpKeys k key ≠ 0) →
    v.maxSize.toNat ≤ (route key t).node.keys.length → ∀ i mid j, PlaceOf key (route key t).node.keys i →
      (putAt (route key t).node.keys i key)[((route key t).node.keys.length + 1) / 2]? = some mid →
      PlaceOf mid (bottom key t).keys j → j = (bottom key t).keys.length

/-- A full leaf that a search ends at is the last one below its branch. -/
theorem CutsLast.last {t : Tree (h + 1)} (hcuts : CutsLast v key t)
    (hnew : ∀ k ∈ (route key t).node.keys, cmpKeys k key ≠ 0)
    (hfull : v.maxSize.toNat ≤ (route key t).node.keys.length) : (bottom key t).goesFirst key = false := by
  obtain ⟨rest, hrest⟩ := crumbs_eq_cons key t
  have hidx := hcuts hnew hfull _ (by rw [hrest]; rfl)
  cases hg : (bottom key t).goesFirst key
  · rfl
  · rw [hg] at hidx; cases hidx

/-- The first crumb of the search is the branch above the leaf. -/
theorem CutsLast.crumb {t : Tree (h + 1)} (hcuts : CutsLast v key t) (ht : Held v t) {c : PageId} {idx : Int}
    {rest : List Crumb} {parent : BTreePage} (hcs : crumbs key t = (c, idx) :: rest)
    (hnew : ∀ k ∈ (route key t).node.keys, cmpKeys k key ≠ 0)
    (hfull : v.maxSize.toNat ≤ (route key t).node.keys.length) (hc : v.node c = some parent) :
    c = (bottom key t).pid ∧ parent = node (h := 1) (bottom key t) ∧ (bottom key t).goesFirst key = false := by
  obtain ⟨rest', hrest⟩ := crumbs_eq_cons key t
  rw [hrest] at hcs
  cases hcs
  have hpar : v.node (bottom key t).pid = some (node (h := 1) (bottom key t)) := (ht.stored.bottom key).root.2
  rw [hc] at hpar
  exact ⟨rfl, Option.some.inj hpar, hcuts.last hnew hfull⟩

/-- In a sorted tree the middle key of the last leaf is above all separators. -/
theorem CutsLast.atEnd (hcuts : CutsLast v key t) (hK : TotalOn K) (hm : 2 ≤ v.maxSize.toNat)
    (hsorted : Sorted K t) (hkey : K key) (ho : Outer key t) : CutsAtEnd v key t := by
  cases h with
  | zero => trivial
  | succ h =>
    intro hnew hfull i mid j hi hmid hj
    have hlast := hcuts.last hnew hfull
    have hins := hsorted.insert hK hkey ho hnew hi ⟨0, 0⟩
    have hb := bottom_setLeaf key t ((route key t).add i key ⟨0, 0⟩)
    have hlast' : (bottom key (Tree.setLeaf key t ((route key t).add i key ⟨0, 0⟩))).goesFirst key = false := by
      rw [hb, Branch.goesFirst_setChild, hlast]
    have hl : (bottom key (Tree.setLeaf key t ((route key t).add i key ⟨0, 0⟩))).last =
        (route key t).add i key ⟨0, 0⟩ := by
      rw [← route_eq_last hlast', route_setLeaf]
    have hlen := Leaf.length_add hi ⟨0, 0⟩
    have habove := (hins.bottom key).lt_mid hK (by rw [hl, hlen]; omega)
      (by rw [hl, hlen, Leaf.keys_add]; exact hmid)
    rw [hb, Branch.setChild_keys] at habove
    exact hj.eq_length habove

/-- The separator that a cut of the last leaf puts into the branch above it. -/
theorem addChild_eq_cutLast {t : Tree (h + 1)} {l : Leaf} (hl : l.pid = (route key t).pid)
    (hlast : (bottom key t).goesFirst key = false) (mid : BTreeKey) {j : Nat}
    (hj : j = (bottom key t).keys.length) (new : PageId) (u : Uninit) :
    (node (h := 1) (bottom key t)).addChild j mid l.pid new =
      (cutLast (bottom key (setLeaf key t l)) mid new u).node := by
  have hb := bottom_setLeaf key t l
  have hlast' : (bottom key (setLeaf key t l)).goesFirst key = false := by
    rw [hb, Branch.goesFirst_setChild, hlast]
  have hl' : (bottom key (setLeaf key t l)).last = l := by
    rw [← route_eq_last hlast', route_setLeaf]
  have hkeys : (bottom key (setLeaf key t l)).keys = (bottom key t).keys := by
    rw [hb, Branch.setChild_keys]
  rw [node_cutLast, hl', hkeys, hj, hb]
  have hpid : pid (h := 0) l = ((bottom key t).child key).pid := by
    rw [← route_eq_child]
    exact hl
  rw [node_setChild (h := 0) key (bottom key t) hpid]

/-- The leaf, with the record put in, is cut. -/
theorem Held.splitLeaf (hs : v.Sound) (hpk : v.Packed) (hcount : v.diskCount.toNat + 1 < 65536)
    {t : Tree (h + 1)} (ht : Held v t) {l : Leaf} (hl : l.pid = (route key t).pid)
    (hlast : (bottom key t).goesFirst key = false) (mid : BTreeKey) {j : Nat}
    (hj : j = (bottom key t).keys.length) (u : Uninit) :
    Held (v.splitLeaf l.pid l.node (bottom key t).pid
      ((node (h := 1) (bottom key t)).addChild j mid l.pid v.newId) u)
      (Tree.cutRoute key (Tree.setLeaf key t l) mid v.newId u) := by
  have hlast' : (bottom key (Tree.setLeaf key t l)).goesFirst key = false := by
    rw [bottom_setLeaf, Branch.goesFirst_setChild, hlast]
  have hlive : v.live l.pid = true := hl ▸ Held.live hs ht.stored _ (route_pid_mem key t)
  have hcut := (ht.setLeaf hl).cutRoute (hs.put hlive _) hpk hcount hlast' mid u
  have hpid : (bottom key (Tree.setLeaf key t l)).pid = (bottom key t).pid := by
    rw [bottom_setLeaf, Branch.setChild_pid]
  rw [route_setLeaf, hpid, View.put_splitLeaf] at hcut
  rw [addChild_eq_cutLast hl hlast mid hj v.newId u]
  exact hcut

/-- The leaf that is the root, with the record put in, is cut. -/
theorem Held.splitRoot (hs : v.Sound) (hpk : v.Packed) (hcount : v.diskCount.toNat + 2 < 65536)
    {l₀ l : Leaf} (ht : Held (h := 0) v l₀) (hl : l.pid = l₀.pid) (mid : BTreeKey) (u w : Uninit) :
    Held (v.splitRoot l.node mid u w) (Tree.cutLeaf l mid v.newId (v.addPage true).newId u w) := by
  have hroot : l.pid = v.rootPid := hl.trans ht.root.symm
  have hlive : v.live l.pid = true := hs _ _ (hl ▸ ht.stored.1) (hl ▸ ht.stored.2)
  have hput : Held (h := 0) (v.put l.pid l.node) l :=
    ⟨hroot.symm, ⟨hl ▸ ht.stored.1, View.put_node_same ..⟩, List.pairwise_singleton ..⟩
  have hcut := hput.cutLeaf (hs.put hlive _) hpk hcount mid u w
  rw [hroot, View.put_splitRoot] at hcut
  exact hcut

/-- The last leaf of the branch that is the root, with the record put in, is cut, and then the branch. -/
theorem Held.splitBoth (hs : v.Sound) (hpk : v.Packed) (hcount : v.diskCount.toNat + 3 < 65536)
    {t : Tree 1} (ht : Held v t) {l : Leaf} (hl : l.pid = (route key t).pid)
    (hlast : (bottom key t).goesFirst key = false) {mid mid₂ : BTreeKey} {j : Nat}
    (hj : j = (bottom key t).keys.length)
    (hmid₂ : (putAt (bottom key t).keys j mid)[((bottom key t).keys.length + 1) / 2]? = some mid₂) (u u' w : Uninit) :
    ∃ ks₁ d ks₂, (Tree.cutLast (bottom key (Tree.setLeaf key t l)) mid v.newId u).kids = ks₁ ++ (d, mid₂) :: ks₂ ∧
      ks₁.length = ((bottom key t).keys.length + 1) / 2 ∧ ks₂.length + ks₁.length = (bottom key t).keys.length ∧
      ∃ new root, Held ((v.splitLeaf l.pid l.node (bottom key t).pid
          ((node (h := 1) (bottom key t)).addChild j mid l.pid v.newId) u).splitRoot
            ((node (h := 1) (bottom key t)).addChild j mid l.pid v.newId) mid₂ u' w)
        (Tree.cutBranch (Tree.cutLast (bottom key (Tree.setLeaf key t l)) mid v.newId u) ks₁ d mid₂ ks₂ new root
          u' w) := by
  have hcut := ht.splitLeaf hs hpk (by omega) hl hlast mid hj u
  have hnode := addChild_eq_cutLast hl hlast mid hj v.newId u
  -- the branch with the leaf cut, and its middle separator
  change Held _ (Tree.cutLast (bottom key (Tree.setLeaf key t l)) mid v.newId u) at hcut
  generalize Tree.cutLast (bottom key (Tree.setLeaf key t l)) mid v.newId u = b₂ at hnode hcut ⊢
  have hkeys : b₂.keys = putAt (bottom key t).keys j mid := by
    have := congrArg BTreePage.keys hnode
    rw [BTreePage.addChild_keys rfl] at this
    exact this.symm
  have hlen₂ : b₂.kids.length = (bottom key t).keys.length + 1 := by
    rw [← putAt_length _ mid (Nat.le_of_eq hj), ← hkeys, Branch.keys, List.length_map]
  obtain ⟨ks₁, d, ks₂, hks, hk₁⟩ := exists_eq_append_of_getElem? (show (b₂.kids.map (·.2))[_]? = _ from hkeys ▸ hmid₂)
  have hk₂ : ks₂.length + ks₁.length + 1 = b₂.kids.length := by
    rw [hks, List.length_append, List.length_cons]
    omega
  have hid : v.newId ≠ 0 := View.newId_ne_zero (by omega)
  have hsound : (v.splitLeaf l.pid l.node (bottom key t).pid
      ((node (h := 1) (bottom key t)).addChild j mid l.pid v.newId) u).Sound :=
    hs.splitLeaf (hl ▸ Held.live hs ht.stored _ (route_pid_mem key t))
      (Held.live hs ht.stored _ (bottom_pid_mem t)) _ _ u
  have hcount₂ : (v.splitLeaf l.pid l.node (bottom key t).pid
      ((node (h := 1) (bottom key t)).addChild j mid l.pid v.newId) u).diskCount.toNat + 2 < 65536 := by
    rw [View.splitLeaf_diskCount hid]
    omega
  have hroot₂ := hcut.cutBranch hsound (hpk.addPage hid true) hcount₂ hks (by omega) u' w
  rw [← show _ = Tree.node (h := 1) b₂ from hnode] at hroot₂
  exact ⟨ks₁, d, ks₂, hks, by omega, by omega, _, _, hroot₂⟩

/-- What an insertion does to an index that is a tree, if it cuts only last leaves, at a key above all
separators. -/
theorem InsertStep.recut (hs : v.Sound) (hpk : v.Packed) (hm : 2 ≤ v.maxSize.toNat) (ht : Held v t)
    (hcuts : CutsLast v key t) (hend : CutsAtEnd v key t) {r : PageId}
    (hstep : InsertStep v key val (route key t).pid (route key t).node (crumbs key t) r v') :
    (r = 0 ∧ v' = v ∧ ∃ k ∈ (route key t).node.keys, cmpKeys k key = 0) ∨
      r = (route key t).pid ∧ (∀ k ∈ (route key t).node.keys, cmpKeys k key ≠ 0) ∧
        ∃ (i : Nat) (h' : Nat) (t' : Tree h'), PlaceOf key (route key t).node.keys i ∧
          Recut v.maxSize.toNat key (setLeaf key t ((route key t).add i key val)) t' ∧ Held v' t' := by
  have hlive := Held.live hs ht.stored _ (route_pid_mem key t)
  have hheld : ∀ i, Held (v.put (route key t).pid ((route key t).add i key val).node)
      (setLeaf key t ((route key t).add i key val)) := fun i =>
    ht.setLeaf (l := (route key t).add i key val) rfl
  generalize hcs : crumbs key t = cs at hstep
  cases hstep with
  | duplicate hdup => exact .inl ⟨rfl, rfl, hdup⟩
  | @room _ i hnew hi hroom =>
    refine .inr ⟨rfl, hnew, i, h, _, hi, .room ?_, ?_⟩
    · rw [route_setLeaf, Leaf.length_add hi]
      exact hroom
    · rw [← Leaf.node_add]
      exact hheld i
  | @splitRoot i mid u w hnew hi hfull hmid hcount =>
    have h0 : h = 0 := by rw [← crumbs_length key t, hcs]; rfl
    subst h0
    have hcut := ht.splitRoot (l := (route key t).add i key val) hs hpk hcount rfl mid u w
    refine .inr ⟨rfl, hnew, i, 1, Tree.cutLeaf ((route key t).add i key val) mid v.newId
      (v.addPage true).newId u w, hi, .leaf ?_ (Leaf.mid_add hi hmid val), ?_⟩
    · show _ < ((route key t).add i key val).records.length
      rw [Leaf.length_add hi]
      omega
    · rw [← Leaf.node_add]
      exact hcut
  | @splitLeaf rest c idx i j mid u parent hnew hi hfull hmid hcount hc hj hroom =>
    cases h with
    | zero => cases hcs
    | succ h =>
      obtain ⟨rfl, rfl, hlast⟩ := hcuts.crumb ht hcs hnew hfull hc
      have hlen := Leaf.length_add hi val
      refine .inr ⟨rfl, hnew, i, h + 1, cutRoute key _ mid v.newId u, hi, .last ?_ ?_ ?_, ?_⟩
      · rw [route_setLeaf]; omega
      · rw [bottom_setLeaf, Branch.goesFirst_setChild, hlast]
      · rw [route_setLeaf]; exact Leaf.mid_add hi hmid val
      · rw [← Leaf.node_add]
        exact ht.splitLeaf (l := (route key t).add i key val) hs hpk hcount rfl hlast mid
          (hend hnew hfull i mid j hi hmid hj) u
  | @splitBoth c idx i j mid mid₂ u u' w parent hnew hi hfull hmid hcount hc hroot hj hover hmid₂ =>
    have h1 : h = 1 := by rw [← crumbs_length key t, hcs]; rfl
    subst h1
    obtain ⟨rfl, rfl, hlast⟩ := hcuts.crumb ht hcs hnew hfull hc
    have hlen := Leaf.length_add hi val
    have hj' := hend hnew hfull i mid j hi hmid hj
    have hkeys : 2 ≤ (bottom key t).keys.length := Nat.le_trans hm hover
    obtain ⟨ks₁, d, ks₂, hks, hk₁, hk₂, new, root, hheld₂⟩ :=
      ht.splitBoth (l := (route key t).add i key val) hs hpk hcount rfl hlast hj' hmid₂ u u' w
    rw [← Leaf.node_add]
    refine .inr ⟨rfl, hnew, i, 2, _, hi, ?_, hheld₂⟩
    have hlast' : (bottom key (setLeaf key t ((route key t).add i key val))).goesFirst key = false := by
      rw [bottom_setLeaf, Branch.goesFirst_setChild, hlast]
    have hl : (bottom key (setLeaf key t ((route key t).add i key val))).last =
        (route key t).add i key val := by rw [← route_eq_last hlast', route_setLeaf]
    refine .branch (b := bottom key (setLeaf key t ((route key t).add i key val))) ?_ hlast' ?_ hks ?_ ?_
    · rw [hl]; omega
    · rw [hl]; exact Leaf.mid_add hi hmid val
    · exact List.ne_nil_of_length_pos (by omega)
    · exact List.ne_nil_of_length_pos (by omega)

end Step

end SomeDB
