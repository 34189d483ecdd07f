import SomeDB.Index.Tree
import Mathlib.Data.List.Perm.Subperm

/-!
# Where a key belongs

In a branch a key belongs to the child before the first separator that is above it, and if there is none to the
last child. `Tree.homeLeaf` is the leaf that the key belongs to, `Tree.homeCrumbs` the way to it. `findLeaf` takes
the first child or the last one, so it comes to that leaf if and only if there is no other child on the way.
-/

namespace SomeDB

open Lib

/-! ## The child that a key belongs to -/

/-- The child and its index among those that are left, which begin at `i`; -1 is that of the last child. -/
def homeIn {α : Type} (key : BTreeKey) : List (α × BTreeKey) → α → Int → α × Int
  | [], last, _ => (last, -1)
  | (c, s) :: kids, last, i => if BTreeKey.Lt key s then (c, i) else homeIn key kids last (i + 1)

/-- The child that the key belongs to, and its index. -/
def Branch.home {α : Type} (key : BTreeKey) (b : Branch α) : α × Int := homeIn key b.kids b.last 0

/-- The key is not below `lo` and it is below `hi`. -/
def InInterval (lo hi : Option BTreeKey) (key : BTreeKey) : Prop :=
  (∀ a ∈ lo, ¬ BTreeKey.Lt key a) ∧ ∀ b ∈ hi, BTreeKey.Lt key b

/-- Each child is bounded by the separators next to it. -/
def KidsBounded {α : Type} (P : Option BTreeKey → Option BTreeKey → α → Prop) :
    Option BTreeKey → List (α × BTreeKey) → α → Option BTreeKey → Prop
  | lo, [], last, hi => P lo hi last
  | lo, (c, s) :: kids, last, hi => P lo (some s) c ∧ KidsBounded P (some s) kids last hi

section Home

variable {α : Type} {key : BTreeKey} {P : Option BTreeKey → Option BTreeKey → α → Prop}

/-- The interval of the child that the key belongs to holds the key. -/
theorem KidsBounded.homeIn {kids : List (α × BTreeKey)} {lo hi : Option BTreeKey} {last : α}
    (h : KidsBounded P lo kids last hi) (hkey : InInterval lo hi key) (i : Int) :
    ∃ lo' hi', P lo' hi' (SomeDB.homeIn key kids last i).1 ∧ InInterval lo' hi' key := by
  induction kids generalizing lo i with
  | nil => exact ⟨lo, hi, h, hkey⟩
  | cons cs kids ih =>
    obtain ⟨c, s⟩ := cs
    obtain ⟨hc, hrest⟩ := h
    by_cases hlt : BTreeKey.Lt key s
    · refine ⟨lo, some s, ?_, hkey.1, ?_⟩
      · rwa [SomeDB.homeIn, if_pos hlt]
      · rintro b ⟨⟩
        exact hlt
    · have hkey' : InInterval (some s) hi key := by
        refine ⟨?_, hkey.2⟩
        rintro a ⟨⟩
        exact hlt
      rw [SomeDB.homeIn, if_neg hlt]
      exact ih hrest hkey' (i + 1)

/-- Behind the first child only the last one has an index that is not positive. -/
theorem homeIn_of_nonpos {kids : List (α × BTreeKey)} {last : α} {i : Int} (hi : 0 < i)
    (h : (homeIn key kids last i).2 ≤ 0) : homeIn key kids last i = (last, -1) := by
  induction kids generalizing i with
  | nil => rfl
  | cons cs kids ih =>
    obtain ⟨c, s⟩ := cs
    rw [homeIn] at h ⊢
    split at h
    · exact absurd h (by simp only; omega)
    · next hlt =>
      rw [if_neg hlt]
      exact ih (by omega) h

theorem Branch.home_of_nonpos {b : Branch α} (h : (b.home key).2 ≤ 0) :
    b.home key = (b.child key, if b.goesFirst key then 0 else -1) := by
  rcases b with ⟨pid, flags, next, _ | ⟨⟨c, s⟩, ks⟩, last⟩
  · rfl
  · by_cases hlt : BTreeKey.Lt key s
    · simp [Branch.home, homeIn, Branch.child, Branch.goesFirst, hlt]
    · simp only [Branch.home, homeIn, if_neg hlt, Branch.child, Branch.goesFirst, decide_eq_true_eq] at h ⊢
      exact homeIn_of_nonpos (by omega) h

end Home

namespace Tree

variable {v : View} {key : BTreeKey}

/-- The leaf that the key belongs to. -/
def homeLeaf (key : BTreeKey) : {h : Nat} → Tree h → Leaf
  | 0, l => l
  | _ + 1, b => homeLeaf key (Branch.home key b).1

/-- The branches on the way to it, the lowest one first, with the indices of the children. -/
def homeCrumbs (key : BTreeKey) : {h : Nat} → Tree h → List Crumb
  | 0, _ => []
  | _ + 1, b => homeCrumbs key (Branch.home key b).1 ++ [(Branch.pid b, (Branch.home key b).2)]

/-- The keys of each subtree lie between the separators next to it. -/
def InBounds : {h : Nat} → Option BTreeKey → Option BTreeKey → Tree h → Prop
  | 0, lo, hi, l => ∀ k ∈ (Leaf.records l).map (·.1), InInterval lo hi k
  | _ + 1, lo, hi, b => KidsBounded InBounds lo (Branch.kids b) (Branch.last b) hi

/-- The leaf that the key belongs to is the one whose interval holds the key. -/
theorem InBounds.homeLeaf {h : Nat} {t : Tree h} {lo hi : Option BTreeKey} (hb : InBounds lo hi t)
    (hkey : InInterval lo hi key) :
    ∃ lo' hi', InBounds (h := 0) lo' hi' (homeLeaf key t) ∧ InInterval lo' hi' key := by
  induction h generalizing lo hi with
  | zero => exact ⟨lo, hi, hb, hkey⟩
  | succ h ih =>
    obtain ⟨lo', hi', hb', hkey'⟩ := KidsBounded.homeIn hb hkey 0
    exact ih hb' hkey'

/-- Without an inner child on the way it is the way of the search. -/
theorem home_of_nonpos {h : Nat} {t : Tree h} (hle : ∀ c ∈ homeCrumbs key t, c.2 ≤ 0) :
    homeLeaf key t = route key t ∧ homeCrumbs key t = crumbs key t := by
  induction h with
  | zero => exact ⟨rfl, rfl⟩
  | succ h ih =>
    have htop : (Branch.home key t).2 ≤ 0 :=
      hle (Branch.pid t, (Branch.home key t).2) (List.mem_append_right _ (List.mem_singleton.mpr rfl))
    have hbelow := ih (t := (Branch.home key t).1) fun c hc => hle c (List.mem_append_left _ hc)
    simp only [homeLeaf, homeCrumbs, route, crumbs]
    rw [Branch.home_of_nonpos htop] at hbelow ⊢
    exact ⟨hbelow.1, by rw [hbelow.2]⟩

theorem crumbs_nonpos (key : BTreeKey) {h : Nat} (t : Tree h) : ∀ c ∈ crumbs key t, c.2 ≤ 0 := by
  induction h with
  | zero => exact fun c hc => nomatch hc
  | succ h ih =>
    intro c hc
    rcases List.mem_append.mp hc with hc | hc
    · exact ih _ c hc
    · rw [List.mem_singleton.mp hc]
      show (if _ then (0 : Int) else -1) ≤ 0
      split <;> decide

/-! ## Heights -/

/-- A page holds the root of trees of one height only. -/
theorem Stored.height_eq {h k : Nat} {t : Tree h} {u : Tree k} (ht : Stored v t) (hu : Stored v u)
    (hpid : t.pid = u.pid) : h = k := by
  induction h generalizing k with
  | zero =>
    cases k with
    | zero => rfl
    | succ k =>
      have hnode := (hpid ▸ ht.root.2).symm.trans hu.root.2
      cases congrArg BTreePage.values (Option.some.inj hnode)
  | succ h ih =>
    cases k with
    | zero =>
      have hnode := (hpid ▸ ht.root.2).symm.trans hu.root.2
      cases congrArg BTreePage.values (Option.some.inj hnode)
    | succ k =>
      have hnode := (hpid ▸ ht.root.2).symm.trans hu.root.2
      have hlast : (Branch.last t).pid = (Branch.last u).pid :=
        congrArg BTreePage.rightmostPtr (Option.some.inj hnode)
      have hmem {m : Nat} (b : Branch (Tree m)) : b.last ∈ b.children := by simp [Branch.children]
      rw [ih (ht.2.2 _ (hmem t)) (hu.2.2 _ (hmem u)) hlast]

/-- The pages from the root along the last children. -/
def spine : {h : Nat} → Tree h → List PageId
  | 0, l => [Leaf.pid l]
  | _ + 1, b => Branch.pid b :: spine (Branch.last b)

theorem spine_length {h : Nat} (t : Tree h) : t.spine.length = h + 1 := by
  induction h with
  | zero => rfl
  | succ h ih => rw [spine, List.length_cons, ih]

theorem Stored.of_mem_spine {h : Nat} {t : Tree h} (hs : Stored v t) {p : PageId} (hp : p ∈ t.spine) :
    ∃ k, k ≤ h ∧ ∃ u : Tree k, Stored v u ∧ u.pid = p := by
  induction h with
  | zero => exact ⟨0, Nat.le_refl 0, t, hs, (List.mem_singleton.mp hp).symm⟩
  | succ h ih =>
    rcases List.mem_cons.mp hp with rfl | hp
    · exact ⟨h + 1, Nat.le_refl _, t, hs, rfl⟩
    · obtain ⟨k, hk, u, hu⟩ := ih (hs.2.2 _ (by simp [Branch.children])) hp
      exact ⟨k, by omega, u, hu⟩

theorem Stored.spine_nodup {h : Nat} {t : Tree h} (hs : Stored v t) : t.spine.Nodup := by
  induction h with
  | zero => exact List.pairwise_singleton ..
  | succ h ih =>
    have hlast : Stored v (Branch.last t) := hs.2.2 _ (by simp [Branch.children])
    refine List.nodup_cons.mpr ⟨fun hmem => ?_, ih hlast⟩
    obtain ⟨k, hk, u, hu, hpid⟩ := hlast.of_mem_spine hmem
    have := hu.height_eq hs hpid
    omega

/-- There are 2^32 page ids. -/
theorem nodup_pids_length {ps : List PageId} (h : ps.Nodup) : ps.length ≤ 2 ^ 32 := by
  have hnodup : (ps.map UInt32.toNat).Nodup :=
    List.Pairwise.map _ (fun _ _ hne heq => hne (UInt32.toNat_inj.mp heq)) h
  have hsub : ps.map UInt32.toNat ⊆ List.range (2 ^ 32) := by
    intro x hx
    obtain ⟨p, -, rfl⟩ := List.mem_map.mp hx
    exact List.mem_range.mpr p.toNat_lt
  have hle := (List.subperm_of_subset hnodup hsub).length_le
  rwa [List.length_map, List.length_range] at hle

/-- There are no more levels than page ids. -/
theorem Stored.height_lt {h : Nat} {t : Tree h} (hs : Stored v t) : h < 2 ^ 32 := by
  have hle := nodup_pids_length hs.spine_nodup
  rw [spine_length] at hle
  exact hle

end Tree

/-! ## The search -/

section Search

variable {s : BTree Disk} {v : View} {h : Nat} {t : Tree h} {key : BTreeKey}

/-- `findLeaf` comes to the leaf that the key belongs to, with the way to it, if and only if each child on that
way is the first one or the last one. -/
theorem findLeaf_home_iff (hshow : Shows s v) (hs : Tree.Stored v t) (hk : Tree.Keyed t)
    (hroot : v.rootPid = t.pid) :
    BTree.findLeaf key s =
        (.ok ((Tree.homeLeaf key t).pid, (Tree.homeLeaf key t).node, Tree.homeCrumbs key t), s) ↔
      ∀ c ∈ Tree.homeCrumbs key t, c.2 ≤ 0 := by
  have hlen : (Tree.crumbs key t).length < 2 ^ 32 := by
    rw [Tree.crumbs_length]
    exact hs.height_lt
  have hfind := findLeaf_of_path hshow (hroot ▸ hs.path hk key) hlen
  constructor
  · intro hhome
    rw [hfind] at hhome
    injection hhome with hres
    injection hres with hres
    have hcrumbs : Tree.crumbs key t = Tree.homeCrumbs key t := congrArg (fun r => r.2.2) hres
    exact hcrumbs ▸ Tree.crumbs_nonpos key t
  · intro hle
    obtain ⟨hleaf, hcrumbs⟩ := Tree.home_of_nonpos hle
    rw [hfind, hleaf, hcrumbs]

end Search

/-! ## A tree with an inner child -/

/-- A leaf with one record. -/
def oneRecord (pid next : PageId) (byte : UInt8) : Leaf := ⟨pid, 0, 0, next, [(byteKey byte, ⟨1, 0⟩)]⟩

/-- Three leaves below a root. -/
def threeLeaves : Tree 1 :=
  ⟨4, 0, 0, [(oneRecord 1 2 65, byteKey 66), (oneRecord 2 3 66, byteKey 67)], oneRecord 3 0 67⟩

/-- Its nodes, page by page. -/
def threeLeavesNodes : List BTreePage :=
  [(oneRecord 1 2 65).node, (oneRecord 2 3 66).node, (oneRecord 3 0 67).node, Tree.node threeLeaves]

theorem threeLeaves_shows : Shows (indexOf 2 4 threeLeavesNodes) (viewOf 2 4 threeLeavesNodes) :=
  indexOf_shows (by decide)

theorem threeLeaves_stored : Tree.Stored (viewOf 2 4 threeLeavesNodes) threeLeaves := by
  refine ⟨by decide, rfl, ?_⟩
  intro c hc
  simp only [threeLeaves, Branch.children, List.map_cons, List.map_nil, List.cons_append, List.nil_append,
    List.mem_cons, List.not_mem_nil, or_false] at hc
  rcases hc with rfl | rfl | rfl
  · exact ⟨by decide, rfl⟩
  · exact ⟨by decide, rfl⟩
  · exact ⟨by decide, rfl⟩

theorem threeLeaves_keyed : Tree.Keyed threeLeaves :=
  ⟨by decide, by decide, fun _ _ => trivial⟩

theorem threeLeaves_inBounds : Tree.InBounds none none threeLeaves := by
  have hone : ∀ (lo hi : Option BTreeKey) (pid next : PageId) (b : UInt8), InInterval lo hi (byteKey b) →
      Tree.InBounds (h := 0) lo hi (oneRecord pid next b) := by
    intro lo hi pid next b hin k hk
    obtain rfl := List.mem_singleton.mp hk
    exact hin
  refine ⟨hone _ _ _ _ _ ?_, hone _ _ _ _ _ ?_, hone _ _ _ _ _ ?_⟩
  · exact ⟨by simp, by simpa using by decide⟩
  · exact ⟨by simpa using by decide, by simpa using by decide⟩
  · exact ⟨by simpa using by decide, by simp⟩

/-- The key `A` belongs to the first leaf. -/
theorem findLeaf_home_first : BTree.findLeaf (byteKey 65) (indexOf 2 4 threeLeavesNodes) =
    (.ok (1, (oneRecord 1 2 65).node, [(4, 0)]), indexOf 2 4 threeLeavesNodes) :=
  (findLeaf_home_iff threeLeaves_shows threeLeaves_stored threeLeaves_keyed rfl).mpr (by decide)

/-- The key `B` belongs to the leaf in the middle, and `findLeaf` takes the last one. -/
theorem findLeaf_home_fails :
    Shows (indexOf 2 4 threeLeavesNodes) (viewOf 2 4 threeLeavesNodes) ∧
      Tree.Stored (viewOf 2 4 threeLeavesNodes) threeLeaves ∧ Tree.Keyed threeLeaves ∧
      Tree.InBounds none none threeLeaves ∧ byteKey 66 ∈ (Tree.homeLeaf (byteKey 66) threeLeaves).node.keys ∧
      BTree.findLeaf (byteKey 66) (indexOf 2 4 threeLeavesNodes) ≠
        (.ok ((Tree.homeLeaf (byteKey 66) threeLeaves).pid, (Tree.homeLeaf (byteKey 66) threeLeaves).node,
          Tree.homeCrumbs (byteKey 66) threeLeaves), indexOf 2 4 threeLeavesNodes) := by
  refine ⟨threeLeaves_shows, threeLeaves_stored, threeLeaves_keyed, threeLeaves_inBounds, by decide, fun heq => ?_⟩
  have hfind := findLeaf_of_path threeLeaves_shows (threeLeaves_stored.path threeLeaves_keyed (byteKey 66))
    (by decide)
  rw [hfind] at heq
  injection heq with hres
  injection hres with hres
  have hpid : (3 : PageId) = 2 := congrArg Prod.fst hres
  exact absurd hpid (by decide)

end SomeDB
