import SomeDB.Index.PageFit
import SomeDB.Index.Removal

/-!
# Removal from a sorted tree

Taking out a record and the merges after it keep a tree sorted: the joined leaf has the records of two neighbours, and
the separator between them goes (`Sorted.joinFirst`, `Sorted.joinLast`, `Sorted.joinOnly`) or comes between the
children of the two nodes that are fused (`Sorted.fuse`). With the nodes next to each other (`Siblings`) and small
enough for their pages (`View.Fitting`) that is all a merge relies on, so it is an invariant: `Orderly`.

`Orderly.remove`: a removal whose search finds the key and whose merges finish takes out the record and leaves an
orderly index.
-/

namespace SomeDB

open Lib SomeDB.Tree

namespace Tree

variable {K : BTreeKey → Prop} {key : BTreeKey} {m : Nat}

/-! ## Trees that stay sorted -/

/-- The key of a leaf that the search ends at is on the side where the search looked for it. -/
theorem outer_of_mem {h : Nat} {t : Tree h} (hs : Separated t) (hkey : key ∈ (route key t).node.keys) :
    Outer key t := by
  induction h with
  | zero => trivial
  | succ h ih =>
    refine ⟨?_, ih (hs.2 _ (Branch.child_mem key t)) hkey⟩
    cases hg : Branch.goesFirst key t with
    | true => exact .inl rfl
    | false =>
      right
      intro s hlast
      obtain ⟨r, hr, hrk⟩ := List.mem_map.mp hkey
      have hmem : r ∈ (Branch.child key t).records := by
        rw [records_eq key (Branch.child key t)]
        exact List.mem_append_right _ (List.mem_append_left _ hr)
      rw [Branch.child_of_last hg] at hmem
      rw [← hrk]
      exact hs.1.not_lt_of_mem (List.mem_of_getLast? hlast) r hmem

/-- A record less. -/
theorem Sorted.without {h : Nat} {t : Tree h} (ht : Sorted K t) (hkey : key ∈ (route key t).node.keys) :
    Sorted K (t.without key) := by
  have hrec : (t.without key).records = t.records.filter fun r => r.1 ≠ key := records_erase ht.sorted hkey
  refine ⟨ht.keyed.setLeaf _, ht.separated.setLeaf ht.keyed (outer_of_mem ht.separated hkey) fun r hr =>
    .inl (List.mem_filter.mp hr).1, ?_, fun r hr => ?_, fun s hs => ht.sepK s ?_⟩
  · rw [hrec]
    exact ht.sorted.sublist (List.filter_sublist.map _)
  · rw [hrec] at hr
    exact ht.recK r (List.mem_filter.mp hr).1
  · rwa [Tree.without, seps_setLeaf] at hs

theorem siblings_iff_linked (b : Branch Leaf) : Siblings (h := 1) b ↔ Linked (leaves (h := 1) b) := by
  rw [leaves_two]
  exact and_iff_left fun _ _ => trivial

/-- A sorted node above leaves that are linked is well-formed, with some bound on its keys. -/
theorem Sorted.wellFormed {b : Branch Leaf} (hb : Sorted (h := 1) K b) (hsib : Siblings (h := 1) b) :
    WellFormed (b.kids.length + (records (h := 1) b).length) (h := 1) b := by
  refine ⟨hb.keyed, hb.separated, hb.sorted, ⟨Nat.le_add_right _ _, fun c hc => ?_⟩,
    (siblings_iff_linked b).mp hsib⟩
  have hle : (Leaf.records c).length ≤ (records (h := 1) b).length := by
    obtain ⟨cs₁, cs₂, hcs⟩ := List.append_of_mem hc
    rw [records_branch (h := 0) b, hcs, List.flatMap_append, List.flatMap_cons, records_leaf]
    simp only [List.length_append]
    omega
  exact Nat.le_trans hle (Nat.le_add_left _ _)

/-- A well-formed tree with the records of a sorted one, and no other separators, is sorted. -/
theorem Sorted.of_wellFormed {h h' : Nat} {t : Tree h} {t' : Tree h'} (ht : Sorted K t) (hw : WellFormed m t')
    (hrec : t'.records = t.records) (hseps : ∀ s ∈ t'.seps, s ∈ t.seps) : Sorted K t' :=
  ⟨hw.keyed, hw.separated, hw.sorted, fun r hr => ht.recK r (hrec ▸ hr), fun s hs => ht.sepK s (hseps s hs)⟩

section Join

variable {pid next : PageId} {flags : UInt8} {f g last : Leaf} {sep s₂ : BTreeKey} {ks : List (Leaf × BTreeKey)}

theorem Sorted.joinFirst (hb : Sorted (h := 1) K ⟨pid, flags, next, (f, sep) :: (g, s₂) :: ks, last⟩)
    (hsib : Siblings (h := 1) ⟨pid, flags, next, (f, sep) :: (g, s₂) :: ks, last⟩) :
    Sorted (h := 1) K ⟨pid, flags, next, (f.join g g.next, s₂) :: ks, last⟩ ∧
      Siblings (h := 1) ⟨pid, flags, next, (f.join g g.next, s₂) :: ks, last⟩ := by
  have hle : f.records.length + g.records.length ≤
      ((f, sep) :: (g, s₂) :: ks).length +
        (records (h := 1) ⟨pid, flags, next, (f, sep) :: (g, s₂) :: ks, last⟩).length := by
    simp only [records_two, List.flatMap_cons, List.length_append]
    omega
  obtain ⟨hw, hrec⟩ := (hb.wellFormed hsib).joinFirst hle
  refine ⟨hb.of_wellFormed hw hrec fun s hs => ?_, (siblings_iff_linked _).mpr hw.linked⟩
  simp only [seps, Branch.keys, List.map_cons, List.mem_append, List.mem_cons] at hs ⊢
  rcases hs with (hs | hs) | hs
  · exact .inl (.inr (.inl hs))
  · exact .inl (.inr (.inr hs))
  · simp at hs

theorem Sorted.joinLast (hb : Sorted (h := 1) K ⟨pid, flags, next, ks ++ [(f, sep)], last⟩)
    (hsib : Siblings (h := 1) ⟨pid, flags, next, ks ++ [(f, sep)], last⟩) (hks : ks ≠ []) :
    Sorted (h := 1) K ⟨pid, flags, next, ks, f.join last f.next⟩ ∧
      Siblings (h := 1) ⟨pid, flags, next, ks, f.join last f.next⟩ := by
  have hle : last.records.length + f.records.length ≤ (ks ++ [(f, sep)]).length +
      (records (h := 1) ⟨pid, flags, next, ks ++ [(f, sep)], last⟩).length := by
    simp only [records_two, List.flatMap_append, List.flatMap_cons, List.length_append]
    omega
  obtain ⟨hw, hrec⟩ := (hb.wellFormed hsib).joinLast hks hle
  refine ⟨hb.of_wellFormed hw hrec fun s hs => ?_, (siblings_iff_linked _).mpr hw.linked⟩
  simp only [seps, Branch.keys, List.map_append, List.mem_append] at hs ⊢
  rcases hs with hs | hs
  · exact .inl (.inl hs)
  · simp at hs

theorem Sorted.joinOnly (hb : Sorted (h := 1) K ⟨pid, flags, next, [(f, sep)], last⟩)
    (hsib : Siblings (h := 1) ⟨pid, flags, next, [(f, sep)], last⟩) :
    Sorted (h := 0) K (f.join last f.next) := by
  have hle : last.records.length + f.records.length ≤ [(f, sep)].length +
      (records (h := 1) ⟨pid, flags, next, [(f, sep)], last⟩).length := by
    simp only [records_two, List.flatMap_cons, List.length_append]
    omega
  obtain ⟨hw, hrec⟩ := (hb.wellFormed hsib).joinOnly hle
  exact hb.of_wellFormed hw hrec fun s hs => by cases hs

end Join

/-! ## Separators in order -/

/-- The separators of a tree from left to right. -/
def separators : {h : Nat} → Tree h → List BTreeKey
  | 0, _ => []
  | _ + 1, b => (Branch.kids b).flatMap (fun c => separators c.1 ++ [c.2]) ++ separators (Branch.last b)

/-- Those to the left of the child that the search goes to. -/
def leftSeps (key : BTreeKey) {h : Nat} (b : Branch (Tree h)) : List BTreeKey :=
  if b.goesFirst key then [] else b.kids.flatMap fun c => separators c.1 ++ [c.2]

/-- Those to its right. -/
def rightSeps (key : BTreeKey) {h : Nat} (b : Branch (Tree h)) : List BTreeKey :=
  match b.kids with
  | [] => []
  | (_, s) :: kids =>
    if BTreeKey.Lt key s then s :: (kids.flatMap (fun c => separators c.1 ++ [c.2]) ++ separators b.last) else []

/-- The separators to the left of the leaf that the search ends at. -/
def sepsBefore (key : BTreeKey) : {h : Nat} → Tree h → List BTreeKey
  | 0, _ => []
  | _ + 1, b => leftSeps key b ++ sepsBefore key (Branch.child key b)

/-- The separators to its right. -/
def sepsAfter (key : BTreeKey) : {h : Nat} → Tree h → List BTreeKey
  | 0, _ => []
  | _ + 1, b => sepsAfter key (Branch.child key b) ++ rightSeps key b

theorem separators_setChild (key : BTreeKey) {h : Nat} (b : Branch (Tree h)) (c : Tree h) :
    separators (h := h + 1) (b.setChild key c) = leftSeps key b ++ separators c ++ rightSeps key b := by
  rcases b with ⟨pid, flags, next, _ | ⟨⟨d, s⟩, ks⟩, last⟩
  · simp [separators, leftSeps, rightSeps, Branch.setChild, Branch.goesFirst]
  · by_cases hlt : BTreeKey.Lt key s <;>
      simp [separators, leftSeps, rightSeps, Branch.setChild, Branch.goesFirst, hlt]

theorem separators_child (key : BTreeKey) {h : Nat} (b : Branch (Tree h)) :
    separators (h := h + 1) b = leftSeps key b ++ separators (b.child key) ++ rightSeps key b := by
  rw [← separators_setChild, Branch.setChild_child]

/-- A leaf has none. -/
theorem separators_eq (key : BTreeKey) {h : Nat} (t : Tree h) :
    t.separators = sepsBefore key t ++ sepsAfter key t := by
  induction h with
  | zero => rfl
  | succ h ih =>
    show separators (h := h + 1) t = _
    rw [separators_child key, ih]
    simp [sepsBefore, sepsAfter]

/-- The last leaf below its branch is cut. -/
theorem separators_cutRoute {h : Nat} {t : Tree (h + 1)} (hlast : (bottom key t).goesFirst key = false)
    (mid : BTreeKey) (new : PageId) (u : Uninit) :
    (cutRoute key t mid new u).separators = sepsBefore key t ++ mid :: sepsAfter key t := by
  induction h with
  | zero =>
    have hg : Branch.goesFirst key t = false := hlast
    have hright : rightSeps key t = [] := by
      rcases t with ⟨pid, flags, next, _ | ⟨⟨d, s⟩, ks⟩, last⟩
      · rfl
      · have hlt : ¬ BTreeKey.Lt key s := by simpa [Branch.goesFirst] using hg
        simp [rightSeps, hlt]
    simp [cutRoute, cutLast, separators, sepsBefore, sepsAfter, leftSeps, hg, hright]
  | succ h ih =>
    show separators (h := h + 2) (Branch.setChild key t (cutRoute key (Branch.child key t) mid new u)) = _
    rw [separators_setChild, ih hlast]
    simp [sepsBefore, sepsAfter]

theorem lt_sepsAfter {h : Nat} {t : Tree h} (hs : Separated t) (ha : t.separators.Pairwise BTreeKey.Lt) :
    ∀ r ∈ (route key t).records, ∀ s ∈ sepsAfter key t, BTreeKey.Lt r.1 s := by
  induction h with
  | zero => simp [sepsAfter]
  | succ h ih =>
    intro r hr s hmem
    have hasc : (leftSeps key t ++ separators (Branch.child key t) ++ rightSeps key t).Pairwise BTreeKey.Lt := by
      rwa [← separators_child]
    rw [List.append_assoc, List.pairwise_append, List.pairwise_append] at hasc
    obtain ⟨-, ⟨hchild, hright, -⟩, -⟩ := hasc
    rcases List.mem_append.mp hmem with hmem | hmem
    · exact ih (hs.2 _ (Branch.child_mem key t)) hchild r hr s hmem
    · -- the first child is below the first separator
      have hrec : r ∈ (Branch.child key t).records := by
        rw [records_eq key (Branch.child key t)]
        exact List.mem_append_right _ (List.mem_append_left _ hr)
      rcases t with ⟨pid, flags, next, _ | ⟨⟨d, s₁⟩, ks⟩, last⟩
      · cases hmem
      · by_cases hlt : BTreeKey.Lt key s₁
        · simp only [rightSeps, if_pos hlt, List.pairwise_cons] at hmem hright
          have hfirst : BTreeKey.Lt r.1 s₁ := hs.1.1 r (by simpa [Branch.child, hlt] using hrec)
          rcases List.mem_cons.mp hmem with rfl | hmem
          · exact hfirst
          · exact BTreeKey.lt_trans hfirst (hright.1 s hmem)
        · simp [rightSeps, hlt] at hmem

theorem not_lt_sepsBefore {h : Nat} {t : Tree h} (hs : Separated t) (ha : t.separators.Pairwise BTreeKey.Lt) :
    ∀ r ∈ (route key t).records, ∀ s ∈ sepsBefore key t, ¬ BTreeKey.Lt r.1 s := by
  induction h with
  | zero => simp [sepsBefore]
  | succ h ih =>
    intro r hr s hmem
    have hasc : (leftSeps key t ++ separators (Branch.child key t) ++ rightSeps key t).Pairwise BTreeKey.Lt := by
      rwa [← separators_child]
    rw [List.append_assoc, List.pairwise_append, List.pairwise_append] at hasc
    obtain ⟨hleft, ⟨hchild, -⟩, -⟩ := hasc
    rcases List.mem_append.mp hmem with hmem | hmem
    · -- the last child is not below the last separator
      unfold leftSeps at hmem hleft
      split at hmem
      · cases hmem
      · next hg =>
        have hg := Bool.not_eq_true _ ▸ hg
        have hrec : r ∈ (Branch.child key t).records := by
          rw [records_eq key (Branch.child key t)]
          exact List.mem_append_right _ (List.mem_append_left _ hr)
        rw [Branch.child_of_last hg] at hrec
        obtain ⟨ks, ⟨d, z⟩, hks⟩ : ∃ ks x, Branch.kids t = ks ++ [x] := by
          refine ⟨_, _, (List.dropLast_append_getLast ?_).symm⟩
          rintro hnil
          simp [hnil] at hmem
        have hz : ¬ BTreeKey.Lt r.1 z := hs.1.not_lt_of_mem (by simp [hks]) r hrec
        rw [if_neg (by simp [hg]), hks, List.flatMap_append, List.flatMap_singleton, ← List.append_assoc,
          List.pairwise_append] at hleft
        rw [hks, List.flatMap_append, List.flatMap_singleton, ← List.append_assoc, List.mem_append] at hmem
        rcases hmem with hmem | hmem
        · exact fun hlt => hz (BTreeKey.lt_trans hlt (hleft.2.2 s hmem z (by simp)))
        · rwa [List.mem_singleton.mp hmem]
    · exact ih (hs.2 _ (Branch.child_mem key t)) hchild r hr s hmem

theorem separators_setLeaf {h : Nat} (t : Tree h) (l : Leaf) : (setLeaf key t l).separators = t.separators := by
  induction h with
  | zero => rfl
  | succ h ih =>
    show separators (h := h + 1) (Branch.setChild key t (setLeaf key (Branch.child key t) l)) =
      separators (h := h + 1) t
    rw [separators_setChild, ih, separators_child key t]

theorem mem_seps_of_separators {h : Nat} {t : Tree h} {s : BTreeKey} (hs : s ∈ t.separators) : s ∈ t.seps := by
  induction h with
  | zero => cases hs
  | succ h ih =>
    simp only [separators, List.mem_append, List.mem_flatMap, List.mem_cons, List.not_mem_nil, or_false] at hs
    rcases hs with ⟨c, hc, hs | rfl⟩ | hs
    · exact seps_child_subset (by simpa [Branch.children] using .inl ⟨c.2, hc⟩) s (ih hs)
    · exact List.mem_append_left _ (List.mem_map_of_mem hc)
    · exact seps_child_subset (by simp [Branch.children]) s (ih hs)

theorem keys_sublist_separators {h : Nat} (b : Branch (Tree h)) : b.keys.Sublist (separators (h := h + 1) b) := by
  refine List.Sublist.trans ?_ (List.sublist_append_left _ _)
  rw [Branch.keys, List.map_eq_flatMap]
  induction b.kids with
  | nil => exact .refl _
  | cons c ks ih =>
    rw [List.flatMap_cons, List.flatMap_cons]
    exact (List.sublist_append_right _ _).append ih

theorem separators_fuse {h : Nat} (pid next : PageId) (flags : UInt8) (l c : Branch (Tree h)) (k : BTreeKey) :
    separators (h := h + 1) (l.fuse k c) = separators (h := h + 2) ⟨pid, flags, next, [(l, k)], c⟩ := by
  simp [separators, Branch.fuse]

/-! ## Ordered trees -/

/-- A sorted tree whose separators ascend from left to right, with each node next to its neighbour. -/
structure Ordered (K : BTreeKey → Prop) {h : Nat} (t : Tree h) : Prop extends Sorted K t where
  ascending : t.separators.Pairwise BTreeKey.Lt
  siblings : Siblings t

theorem Ordered.child (key : BTreeKey) {h : Nat} {b : Branch (Tree h)} (hb : Ordered (h := h + 1) K b) :
    Ordered K (b.child key) := by
  have hmem := Branch.child_mem key b
  refine ⟨hb.toSorted.child hmem, ?_, hb.siblings.2 _ hmem⟩
  have hasc := hb.ascending
  rw [separators_child key] at hasc
  exact hasc.sublist ((List.sublist_append_right _ _).trans (List.sublist_append_left _ _))

theorem Ordered.without {h : Nat} {t : Tree h} (ht : Ordered K t) (hkey : key ∈ (route key t).node.keys) :
    Ordered K (t.without key) :=
  ⟨ht.toSorted.without hkey, by rw [Tree.without, separators_setLeaf]; exact ht.ascending,
    ht.siblings.setLeaf rfl rfl⟩

section Join

variable {pid next : PageId} {flags : UInt8} {f g last : Leaf} {sep s₂ : BTreeKey} {ks : List (Leaf × BTreeKey)}

theorem Ordered.joinFirst (hb : Ordered (h := 1) K ⟨pid, flags, next, (f, sep) :: (g, s₂) :: ks, last⟩) :
    Ordered (h := 1) K ⟨pid, flags, next, (f.join g g.next, s₂) :: ks, last⟩ := by
  obtain ⟨hsorted, hsib⟩ := hb.toSorted.joinFirst hb.siblings
  refine ⟨hsorted, hb.ascending.sublist ?_, hsib⟩
  simp [separators]

theorem Ordered.joinLast (hb : Ordered (h := 1) K ⟨pid, flags, next, ks ++ [(f, sep)], last⟩) (hks : ks ≠ []) :
    Ordered (h := 1) K ⟨pid, flags, next, ks, f.join last f.next⟩ := by
  obtain ⟨hsorted, hsib⟩ := hb.toSorted.joinLast hb.siblings hks
  refine ⟨hsorted, hb.ascending.sublist ?_, hsib⟩
  simp [separators]

theorem Ordered.joinOnly (hb : Ordered (h := 1) K ⟨pid, flags, next, [(f, sep)], last⟩) :
    Ordered (h := 0) K (f.join last f.next) :=
  ⟨hb.toSorted.joinOnly hb.siblings, .nil, trivial⟩

end Join

/-- Two nodes and the separator between them are one node. The last child of the left one and the first child of the
right one become neighbours. -/
theorem Ordered.fuse {h : Nat} {pid next : PageId} {flags : UInt8} {l c : Branch (Tree h)} {k : BTreeKey}
    (hb : Ordered (h := h + 2) K ⟨pid, flags, next, [(l, k)], c⟩)
    (hseam : ∀ d ∈ c.children.head?, l.last.node.next = d.pid) : Ordered (h := h + 1) K (l.fuse k c) := by
  have hl : Sorted (h := h + 1) K l := hb.toSorted.child (by simp [Branch.children])
  have hc : Sorted (h := h + 1) K c := hb.toSorted.child (by simp [Branch.children])
  have hrec : records (h := h + 1) (l.fuse k c) = records (h := h + 2) ⟨pid, flags, next, [(l, k)], c⟩ := by
    simp [records_branch, Branch.children, Branch.fuse]
  have hasc : (separators (h := h + 1) (l.fuse k c)).Pairwise BTreeKey.Lt := by
    rw [separators_fuse pid next flags]
    exact hb.ascending
  have hkids : ∀ d ∈ (l.fuse k c).children, d ∈ l.children ∨ d ∈ c.children := fun d hd => by
    rwa [Branch.children_fuse, List.mem_append] at hd
  obtain ⟨hbelow, habove, -⟩ := hb.separated.1
  simp only [List.flatMap_nil, List.nil_append] at habove
  have hlk : ∀ s ∈ l.keys, BTreeKey.Lt s k := by
    intro s hs
    have hkeys : (l.keys ++ [k]).Sublist (separators (h := h + 2) ⟨pid, flags, next, [(l, k)], c⟩) := by
      simp only [separators, List.flatMap_cons, List.flatMap_nil, List.append_nil]
      exact ((keys_sublist_separators l).append_right [k]).trans (List.sublist_append_left _ _)
    exact (List.pairwise_append.mp (hb.ascending.sublist hkeys)).2.2 s hs k (by simp)
  have hlast : ∀ r, r ∈ c.kids.flatMap (fun d => d.1.records) ++ c.last.records → r ∈ records (h := h + 1) c := by
    intro r hr
    rw [records_branch]
    simpa [Branch.children, List.flatMap_map] using hr
  -- the separators of the left node also bound the records of the right one
  have hleft : Bounded records l.kids
      (((l.last, k) :: c.kids).flatMap (fun d => d.1.records) ++ c.last.records) := by
    refine hl.separated.1.mono fun r hr => ?_
    rw [List.flatMap_cons, List.append_assoc, List.mem_append] at hr
    exact hr.imp id fun hr s hs hlt => habove r (hlast r hr) (BTreeKey.lt_trans hlt (hlk s hs))
  have hright : Bounded records ((l.last, k) :: c.kids) c.last.records := by
    refine ⟨fun r hr => hbelow r ?_, fun r hr => habove r (hlast r hr), hc.separated.1⟩
    rw [records_branch]
    exact List.mem_flatMap.mpr ⟨l.last, by simp [Branch.children], hr⟩
  refine ⟨⟨⟨by simp [Branch.fuse], ?_, fun d hd => ?_⟩, ⟨?_, fun d hd => ?_⟩, ?_, ?_, ?_⟩, hasc, ?_, fun d hd => ?_⟩
  · exact hasc.sublist (keys_sublist_separators _)
  · exact (hkids d hd).elim (hl.keyed.2.2 d) (hc.keyed.2.2 d)
  · simp only [Branch.fuse, List.append_assoc, List.singleton_append]
    exact bounded_append.mpr ⟨hleft, hright⟩
  · exact (hkids d hd).elim (hl.separated.2 d) (hc.separated.2 d)
  · exact hrec ▸ hb.toSorted.sorted
  · exact hrec ▸ hb.recK
  · intro s hs
    refine hb.sepK s ?_
    simp only [seps, Branch.keys, Branch.children, Branch.fuse, List.map_append, List.map_cons, List.map_nil,
      List.flatMap_append, List.flatMap_cons, List.flatMap_nil, List.mem_append, List.mem_cons, List.not_mem_nil,
      or_false] at hs ⊢
    tauto
  · rw [Branch.children_fuse, List.isChain_append]
    refine ⟨(hb.siblings.2 l (by simp [Branch.children])).1, (hb.siblings.2 c (by simp [Branch.children])).1, ?_⟩
    intro x hx d hd
    obtain rfl : l.last = x := by simpa [Branch.children] using hx
    exact hseam d hd
  · exact (hkids d hd).elim ((hb.siblings.2 l (by simp [Branch.children])).2 d)
      ((hb.siblings.2 c (by simp [Branch.children])).2 d)

/-- A new child with the page and the next pointer of the old one stays next to its neighbours. -/
theorem links_setChild {h : Nat} {b : Branch (Tree h)} {c : Tree h}
    (hb : b.children.IsChain fun c d => c.node.next = d.pid) (hpid : c.pid = (b.child key).pid)
    (hnext : c.node.next = (b.child key).node.next) :
    (b.setChild key c).children.IsChain fun c d => c.node.next = d.pid := by
  have hmap : ∀ cs : List (Tree h), cs.IsChain (fun c d => c.node.next = d.pid) ↔
      (cs.map fun c => (c.pid, c.node.next)).IsChain fun a b => a.2 = b.1 := fun cs =>
    (List.isChain_map (R := fun a b => a.2 = b.1) fun c : Tree h => (c.pid, c.node.next)).symm
  rw [hmap, Branch.children_eq key b, List.map_append, List.map_cons] at hb
  rw [hmap, Branch.children_setChild, List.map_append, List.map_cons, hpid, hnext]
  exact hb

/-- A child may be replaced by a tree in its page, with its records and no other separators. -/
theorem Ordered.setChild {h : Nat} {b : Branch (Tree h)} {c : Tree h} (hb : Ordered (h := h + 1) K b)
    (hc : Ordered K c) (hrec : c.records = (b.child key).records)
    (hseps : c.separators.Sublist (b.child key).separators) (hpid : c.pid = (b.child key).pid)
    (hnext : c.node.next = (b.child key).node.next) : Ordered (h := h + 1) K (b.setChild key c) := by
  have hself := Branch.setChild_child key b
  refine ⟨Sorted.setChild (c := b.child key) (hself.symm ▸ hb.toSorted) hc.toSorted hrec, ?_, ?_,
    Branch.forall_setChild hb.siblings.2 hc.siblings⟩
  · have hasc := hb.ascending
    rw [separators_child key] at hasc
    rw [separators_setChild]
    exact hasc.sublist (((List.Sublist.refl _).append hseps).append (.refl _))
  · exact links_setChild hb.siblings.1 hpid hnext

/-! ## What an insertion leaves -/

section Cut

theorem cutRoute_next {h : Nat} (t : Tree (h + 1)) (mid : BTreeKey) (new : PageId) (u : Uninit) :
    (cutRoute key t mid new u).node.next = t.node.next := by
  cases h with
  | zero => rfl
  | succ h => exact congrArg BTreePage.next (node_setChild key t (cutRoute_pid ..))

/-- The upper half of the last leaf comes after its lower half. -/
theorem Siblings.cutLast {b : Branch Leaf} (hb : Siblings (h := 1) b) (mid : BTreeKey) (new : PageId) (u : Uninit) :
    Siblings (cutLast b mid new u) := by
  refine ⟨?_, fun _ _ => trivial⟩
  have hlinks := hb.1
  simp only [Branch.children, List.isChain_append] at hlinks
  simp only [Tree.cutLast, Branch.children, List.map_append, List.map_cons, List.map_nil, List.append_assoc,
    List.cons_append, List.nil_append, List.isChain_append, List.isChain_cons_cons]
  refine ⟨hlinks.1, ⟨rfl, List.isChain_singleton _⟩, ?_⟩
  rintro c hc _ ⟨⟩
  exact hlinks.2.2 c hc b.last rfl

theorem Siblings.cutRoute {h : Nat} {t : Tree (h + 1)} (ht : Siblings t) (mid : BTreeKey) (new : PageId) (u : Uninit) :
    Siblings (cutRoute key t mid new u) := by
  induction h with
  | zero => exact Siblings.cutLast ht mid new u
  | succ h ih =>
    exact ⟨links_setChild ht.1 (cutRoute_pid ..) (cutRoute_next ..),
      Branch.forall_setChild ht.2 (ih (ht.2 _ (Branch.child_mem key t)))⟩

theorem Siblings.cutBranch {h : Nat} {b : Branch (Tree h)} {ks₁ ks₂ : List (Tree h × BTreeKey)} {c : Tree h}
    {mid : BTreeKey} (hb : Siblings (h := h + 1) b) (hks : b.kids = ks₁ ++ (c, mid) :: ks₂) (new root : PageId)
    (u w : Uninit) : Siblings (cutBranch b ks₁ c mid ks₂ new root u w) := by
  have hch : b.children = (ks₁.map (·.1) ++ [c]) ++ (ks₂.map (·.1) ++ [b.last]) := by
    simp [Branch.children, hks]
  obtain ⟨hlinks, hkids⟩ := hb
  rw [hch, List.isChain_append] at hlinks
  refine ⟨List.isChain_cons_cons.mpr ⟨rfl, List.isChain_singleton _⟩, fun d hd => ?_⟩
  rcases List.mem_cons.mp hd with rfl | hd
  · exact ⟨hlinks.1, fun e he => hkids e (hch ▸ List.mem_append_left _ he)⟩
  · obtain rfl := List.mem_singleton.mp hd
    exact ⟨hlinks.2.1, fun e he => hkids e (hch ▸ List.mem_append_right _ he)⟩

theorem separators_cutBranch {h : Nat} {b : Branch (Tree h)} {ks₁ ks₂ : List (Tree h × BTreeKey)} {c : Tree h}
    {mid : BTreeKey} (hks : b.kids = ks₁ ++ (c, mid) :: ks₂) (new root : PageId) (u w : Uninit) :
    (cutBranch b ks₁ c mid ks₂ new root u w).separators = separators (h := h + 1) b := by
  simp [cutBranch, separators, hks]

/-- The middle key of a leaf that is cut goes between the separators next to the leaf. -/
theorem Ordered.ascending_cutRoute (hK : TotalOn K) {h : Nat} {t : Tree (h + 1)} (ht : Ordered K t)
    (hlast : (bottom key t).goesFirst key = false) {mid : BTreeKey} (hlen : 2 ≤ (route key t).records.length)
    (hmid : ((route key t).records.map (·.1))[(route key t).records.length / 2]? = some mid) (new : PageId)
    (u : Uninit) : (cutRoute key t mid new u).separators.Pairwise BTreeKey.Lt := by
  have hrecs : (route key t).records.Sublist t.records := by
    rw [records_eq key t]
    exact (List.sublist_append_left _ _).trans (List.sublist_append_right _ _)
  have hsorted : ((route key t).records.map (·.1)).Pairwise BTreeKey.Lt := ht.toSorted.sorted.sublist (hrecs.map _)
  obtain ⟨r, hr, rfl⟩ := List.mem_map.mp (List.mem_of_getElem? hmid)
  have hseps := ht.ascending
  rw [separators_eq key t] at hseps
  rw [separators_cutRoute hlast, List.pairwise_append, List.pairwise_cons]
  rw [List.pairwise_append] at hseps
  refine ⟨hseps.1, ⟨lt_sepsAfter ht.separated ht.ascending r hr, hseps.2.1⟩, fun s hs x hx => ?_⟩
  rcases List.mem_cons.mp hx with rfl | hx
  · -- the first record of the leaf is between the two
    have hpos : 0 < (route key t).records.length := by omega
    have hmem : (route key t).records[0] ∈ (route key t).records := List.getElem_mem hpos
    have hfirst : BTreeKey.Lt (route key t).records[0].1 r.1 := by
      refine (Leaf.halves_bounded hsorted hmid).1 _ (List.mem_of_getElem (i := 0) (h := ?_) (List.getElem_take ..))
      rw [List.length_take]
      omega
    have hsK : K s := by
      refine ht.sepK s (mem_seps_of_separators ?_)
      rw [separators_eq key t]
      exact List.mem_append_left _ hs
    rcases hK.eq_or_lt hsK (ht.recK _ (hrecs.subset hmem))
      (not_lt_sepsBefore ht.separated ht.ascending _ hmem s hs) with rfl | hlt
    · exact hfirst
    · exact BTreeKey.lt_trans hlt hfirst
  · exact hseps.2.2 s hs x hx

theorem Recut.ordered {m : Nat} (hm : 2 ≤ m) (hK : TotalOn K) {h h' : Nat} {t : Tree h} {t' : Tree h'}
    (hcut : Recut m key t t') (ht : Ordered K t) : Ordered K t' ∧ t'.records = t.records := by
  obtain ⟨hsorted, hrec⟩ := hcut.sorted hm hK ht.toSorted
  refine ⟨⟨hsorted, ?_, ?_⟩, hrec⟩
  · cases hcut with
    | room => exact ht.ascending
    | leaf => simp [cutLeaf, separators]
    | last hfull hlast hmid => exact ht.ascending_cutRoute hK hlast (by omega) hmid _ _
    | @branch b _ _ _ _ _ _ _ _ _ _ _ hfull hlast hmid hks =>
      rw [separators_cutBranch hks]
      have hroute : route (h := 1) key b = b.last := route_eq_last (h := 0) hlast
      exact ht.ascending_cutRoute (h := 0) hK hlast (by rw [hroute]; omega) (by rw [hroute]; exact hmid) _ _
  · cases hcut with
    | room => exact ht.siblings
    | leaf => exact ⟨List.isChain_cons_cons.mpr ⟨rfl, List.isChain_singleton _⟩, fun _ _ => trivial⟩
    | last => exact ht.siblings.cutRoute _ _ _
    | branch _ _ _ hks => exact (Siblings.cutLast ht.siblings _ _ _).cutBranch hks _ _ _ _

end Cut

end Tree

/-! ## Views whose nodes fit -/

/-- Every node fits in a page. -/
def View.Fitting (v : View) : Prop := ∀ p n, p ≠ 0 → v.node p = some n → n.FitsPage

section Fitting

variable {s : BTree Disk} {v : View}

theorem View.Fitting.put (h : v.Fitting) (p : PageId) {n : BTreePage} (hn : n.FitsPage) : (v.put p n).Fitting := by
  intro q m hq hm
  by_cases hqp : q = p
  · subst hqp
    rw [View.put_node_same] at hm
    cases hm
    exact hn
  · rw [View.put_node_ne _ _ hqp] at hm
    exact h q m hq hm

theorem View.Fitting.fits (hv : v.Fitting) {h : Nat} {t : Tree h} (ht : Stored v t) : Fits t := by
  induction h with
  | zero => exact hv _ _ ht.root.1 ht.root.2
  | succ h ih => exact ⟨hv _ _ ht.root.1 ht.root.2, fun c hc => ih (ht.2.2 c hc)⟩

/-- The metadata page holds no keys. -/
theorem View.Fitting.nodesFit (hv : v.Fitting) (hs : ShowsFit s v) : NodesFit s := by
  refine ⟨hs.magicNum, fun p n hn => ?_, hs.logged⟩
  by_cases hp : p = 0
  · subst hp
    apply BTreePage.fitsPage_of_nil
    rw [hs.nodeAt_zero hn]
  · exact hv p n hp ((hs.node p hp).symm.trans hn)

theorem NodesFit.fitting (h : NodesFit s) (hs : Shows s v) : v.Fitting := fun p n hp hn =>
  h.pages p n ((hs.node p hp).trans hn)

theorem Tree.Ordered.ready {K : BTreeKey → Prop} {h : Nat} {t : Tree h} (ho : Ordered K t) (hv : v.Fitting)
    (ht : Stored v t) (hn : t.pages.Nodup) : Ready v t :=
  ⟨ht, hn, ho.keyed, ho.siblings, hv.fits ht⟩

end Fitting

/-! ## The merges -/

/-- The branch `b'` was stored in place of `b`, with the same records, and is in order. -/
structure Tree.Resettled (K : BTreeKey → Prop) (v v' : View) {h : Nat} (b b' : Tree (h + 1)) : Prop
    extends Rebuilt v v' b b' where
  ordered : Ordered K b'
  seps : b'.separators.Sublist b.separators
  first : (Branch.children b').head?.map Tree.pid = (Branch.children b).head?.map Tree.pid
  fitting : v'.Fitting

/-- The child that the search goes to is put in order, and with it the tree. -/
theorem Tree.Resettled.setChild {K : BTreeKey → Prop} {v v' : View} {key : BTreeKey} {h : Nat}
    {b : Branch (Tree (h + 1))} {c : Tree (h + 1)} (hb : Ready v (h := h + 2) b) (ho : Ordered (h := h + 2) K b)
    (hc : Resettled K v v' (b.child key) c) : Resettled K v v' (h := h + 1) b (b.setChild key c) := by
  refine ⟨hc.toRebuilt.setChild hb, ho.setChild hc.ordered hc.records hc.seps hc.pid hc.next, ?_, ?_, hc.fitting⟩
  · rw [separators_setChild, separators_child key b]
    exact ((List.Sublist.refl _).append hc.seps).append (.refl _)
  · show (b.setChild key c).children.head?.map Tree.pid = b.children.head?.map Tree.pid
    rw [← List.head?_map, ← List.head?_map, Branch.children_setChild, Branch.children_eq key b]
    simp only [List.map_append, List.map_cons, hc.pid]

section Merge

variable {s : BTree Disk} {v : View} {K : BTreeKey → Prop} {key : BTreeKey} {h : Nat}

section Join

variable {pid next : PageId} {flags : UInt8} {f g last : Leaf} {sep s₂ : BTreeKey} {ks : List (Leaf × BTreeKey)}

theorem join_fits (hfit : nodeSize true (f.node.keys ++ g.node.keys) ≤ 4096) (next : PageId) :
    (f.join g next).node.FitsPage := by
  rw [fitsPage_iff]
  show nodeSize true ((f.records ++ g.records).map (·.1)) ≤ 4096
  rwa [List.map_append]

/-- The first leaf gets the records of the second one. -/
theorem merge_firstTakes (hs : ShowsFit s v) (hv : v.Fitting)
    (hb : Ready v (h := 1) ⟨pid, flags, next, (f, sep) :: (g, s₂) :: ks, last⟩)
    (ho : Ordered (h := 1) K ⟨pid, flags, next, (f, sep) :: (g, s₂) :: ks, last⟩) (hne : g.records ≠ [])
    (hle : f.records.length + g.records.length ≤ v.maxSize.toNat)
    (hfit : nodeSize true (f.node.keys ++ g.node.keys) ≤ 4096) (rest : List Crumb) :
    ∃ v₁ s₁, ShowsFit s₁ v₁ ∧
      Resettled K v v₁ (h := 0) ⟨pid, flags, next, (f, sep) :: (g, s₂) :: ks, last⟩
        ⟨pid, flags, next, (f.join g g.next, s₂) :: ks, last⟩ ∧
      BTree.merge f.pid ((pid, 0) :: rest) s =
        BTree.mergeTail pid (node (h := 1) ⟨pid, flags, next, (f.join g g.next, s₂) :: ks, last⟩) f.pid rest s₁ := by
  obtain ⟨hf0, hfn⟩ := hb.stored.2.2 f (by simp [Branch.children])
  obtain ⟨hg0, hgn⟩ := hb.stored.2.2 g (by simp [Branch.children])
  obtain ⟨s₁, hrun, hs₁⟩ := BTree.merge_leaf_right_fit hs hb.stored.1 hb.stored.2.1 rfl hb.fits.root hf0
    hfn hg0 hgn rfl rfl (by simpa [Leaf.node] using hne) (by simpa [Leaf.node] using hle) rfl hb.next_first
    hb.pid_ne_last (by simp [node, Branch.keys]) (fitsPage_absorb.mpr hfit) rest
  have hroot : (node (h := 1) ⟨pid, flags, next, (f, sep) :: (g, s₂) :: ks, last⟩).popFirst f.pid =
      node (h := 1) ⟨pid, flags, next, (f.join g g.next, s₂) :: ks, last⟩ := rfl
  have hjoin : ({ f.node.absorb g.node with next := g.node.next } : BTreePage) = (f.join g g.next).node :=
    (Leaf.node_join f g g.next).symm
  rw [hroot] at hrun hs₁
  rw [hjoin] at hs₁
  refine ⟨_, s₁, hs₁, ⟨⟨hb.stored.joinFirst hb.nodup, rfl, rfl, pages_joinFirst .., fun p hp => put_put_node hp
    (by simp [pages_two]) (by simp [pages_two]) _ _, (SameMeta.put v _ _).trans (SameMeta.put _ _ _),
    records_joinFirst ..⟩, ho.joinFirst, ?_, rfl, (hv.put f.pid (join_fits hfit _)).put pid ?_⟩, hrun⟩
  · simp [separators]
  · rw [← hroot]
    exact BTreePage.popFirst_fits rfl hb.fits.root _

/-- The leaf before the last one gets the records of the last one. -/
theorem merge_lastGiven (hs : ShowsFit s v) (hv : v.Fitting)
    (hb : Ready v (h := 1) ⟨pid, flags, next, ks ++ [(f, sep)], last⟩)
    (ho : Ordered (h := 1) K ⟨pid, flags, next, ks ++ [(f, sep)], last⟩) (hks : ks ≠ []) (hne : f.records ≠ [])
    (hle : last.records.length + f.records.length ≤ v.maxSize.toNat)
    (hfit : nodeSize true (last.node.keys ++ f.node.keys) ≤ 4096) (rest : List Crumb) :
    ∃ v₁ s₁, ShowsFit s₁ v₁ ∧
      Resettled K v v₁ (h := 0) ⟨pid, flags, next, ks ++ [(f, sep)], last⟩
        ⟨pid, flags, next, ks, f.join last f.next⟩ ∧
      BTree.merge last.pid ((pid, -1) :: rest) s =
        BTree.mergeTail pid (node (h := 1) ⟨pid, flags, next, ks, f.join last f.next⟩) f.pid rest s₁ := by
  obtain ⟨hf0, hfn⟩ := hb.stored.2.2 f (by simp [Branch.children])
  obtain ⟨hl0, hln⟩ := hb.stored.2.2 last (by simp [Branch.children])
  have hfit' : nodeSize true (f.node.keys ++ last.node.keys) ≤ 4096 := by rwa [nodeSize_append_comm]
  obtain ⟨s₁, hrun, hs₁⟩ := BTree.merge_leaf_left_fit hs hb.stored.1 hb.stored.2.1 rfl hb.fits.root hl0
    hln (sibPid_last ks last) hf0 hfn rfl rfl (by simpa [Leaf.node] using hne) (by simpa [Leaf.node] using hle) rfl
    (by simp [node, Branch.keys]) (fitsPage_absorb.mpr hfit') rest
  have hroot := node_joinLast pid next flags f last sep hks
  have hjoin : f.node.absorb last.node = (f.join last f.next).node := (Leaf.node_join f last f.next).symm
  have hrootFits := BTreePage.popLast_fits rfl hb.fits.root f.pid
  rw [hroot] at hrun hs₁ hrootFits
  rw [hjoin] at hs₁
  refine ⟨_, s₁, hs₁, ⟨⟨hb.stored.joinLast hb.nodup, rfl, rfl, pages_joinLast .., fun p hp => put_put_node hp
    (by simp [pages_two]) (by simp [pages_two]) _ _, (SameMeta.put v _ _).trans (SameMeta.put _ _ _),
    records_joinLast ..⟩, ho.joinLast hks, ?_, ?_, (hv.put f.pid (join_fits hfit' _)).put pid hrootFits⟩, hrun⟩
  · simp [separators]
  · obtain ⟨c, ks, rfl⟩ := List.exists_cons_of_ne_nil hks
    rfl

/-- The two leaves of a root with one key are joined, and the root goes. -/
theorem merge_onlyTakes (hs : ShowsFit s v) (hv : v.Fitting)
    (hb : Ready v (h := 1) ⟨pid, flags, next, [(f, sep)], last⟩) (hne : f.records ≠ [])
    (hle : last.records.length + f.records.length ≤ v.maxSize.toNat)
    (hfit : nodeSize true (last.node.keys ++ f.node.keys) ≤ 4096) :
    ∃ v₁ s₁, BTree.merge last.pid [(pid, -1)] s = (.ok (), s₁) ∧ ShowsFit s₁ v₁ ∧ v₁.Fitting ∧
      Held (h := 0) v₁ (f.join last f.next) ∧ v₁.maxSize = v.maxSize ∧ (v.Tidy → v₁.Tidy) := by
  obtain ⟨hf0, hfn⟩ := hb.stored.2.2 f (by simp [Branch.children])
  obtain ⟨hl0, hln⟩ := hb.stored.2.2 last (by simp [Branch.children])
  have hfit' : nodeSize true (f.node.keys ++ last.node.keys) ≤ 4096 := by rwa [nodeSize_append_comm]
  obtain ⟨s₁, hrun, hs₁⟩ := BTree.merge_leaf_left_fit hs hb.stored.1 hb.stored.2.1 rfl hb.fits.root hl0
    hln (sibPid_last [] last) hf0 hfn rfl rfl (by simpa [Leaf.node] using hne) (by simpa [Leaf.node] using hle) rfl
    (by simp [node, Branch.keys]) (fitsPage_absorb.mpr hfit') []
  obtain ⟨s₂, hrun₂, hs₂⟩ := mergeTail_collapse hs₁
    (show ((node (h := 1) ⟨pid, flags, next, [(f, sep)], last⟩).popLast f.pid).keys = [] from rfl) pid f.pid
  have hjoin : f.node.absorb last.node = (f.join last f.next).node := (Leaf.node_join f last f.next).symm
  rw [hjoin] at hs₂
  have hfp : f.pid ≠ pid := by
    have hnodup := hb.nodup
    rw [pages_two] at hnodup
    rintro heq
    exact (List.nodup_cons.mp hnodup).1 (by simp [heq])
  refine ⟨_, s₂, hrun.trans hrun₂, hs₂, (hv.put f.pid (join_fits hfit' _)).put pid
    (BTreePage.popLast_fits rfl hb.fits.root f.pid), ⟨rfl, ⟨hf0, ?_⟩, List.pairwise_singleton ..⟩, rfl,
    fun htidy => ((htidy.put _ _).put _ _).collapse _⟩
  exact (View.put_node_ne _ _ hfp).trans (View.put_node_same ..)

end Join

/-- The two children of a root with one key are fused, and the left one becomes the root. -/
theorem merge_fusesChildren (hs : ShowsFit s v) (hv : v.Fitting) {pid next : PageId} {flags : UInt8}
    {l c : Tree (h + 1)} {k : BTreeKey} (ht : Held (h := h + 2) v ⟨pid, flags, next, [(l, k)], c⟩)
    (hle : (Branch.keys c).length + 1 + (Branch.kids l).length + 1 ≤ v.maxSize.toNat + 1)
    (hfit : nodeSize false (Branch.keys l ++ [k] ++ Branch.keys c) ≤ 4096) :
    ∃ v₁ s₁, BTree.merge c.pid [(pid, -1)] s = (.ok (), s₁) ∧ ShowsFit s₁ v₁ ∧ v₁.Fitting ∧
      Held (h := h + 1) v₁ (Branch.fuse l k c) ∧ v₁.maxSize = v.maxSize ∧ (v.Tidy → v₁.Tidy) := by
  have hl : Stored v l := ht.stored.2.2 l (by simp [Branch.children])
  have hc : Stored v c := ht.stored.2.2 c (by simp [Branch.children])
  have hroot := (hv.fits ht.stored).1
  have hlen : l.node.keys.length = (Branch.kids l).length := List.length_map ..
  have hq : BTree.sibPid ([(l, k)].map (·.1.pid)) c.node (decide ((-1 : Int) = -1)) = .ok l.pid := rfl
  obtain ⟨s₁, hrun, hs₁⟩ := BTree.merge_inner_left_fit hs ht.stored.1 ht.stored.2.1 rfl hroot hc.root.1
    hc.root.2 hq hl.root.1 hl.root.2 rfl rfl rfl rfl (by rw [hlen]; exact hle) (fitsPage_fused.mpr hfit) []
  obtain ⟨s₂, hrun₂, hs₂⟩ := mergeTail_collapse hs₁
    (show (node (h := h + 2) ⟨pid, flags, next, [(l, k)], c⟩).demote.keys = [] from rfl) pid l.pid
  refine ⟨_, s₂, hrun.trans hrun₂, hs₂, (hv.put l.pid (fitsPage_fused.mpr hfit)).put pid ?_, ?_, rfl,
    fun htidy => ((htidy.put _ _).put _ _).collapse _⟩
  · exact hroot.sublist rfl (List.nil_sublist _)
  · rw [← node_fuse]
    exact ht.fuse _

/-- The lowest level. -/
theorem merge_resettles (hs : ShowsFit s v) (hv : v.Fitting) {b : Branch Leaf} (hb : Ready v (h := 1) b)
    (ho : Ordered (h := 1) K b) (hset : Settles v.maxSize.toNat key (h := 0) b) (rest : List Crumb) :
    ∃ v₁ b' root s₁, ShowsFit s₁ v₁ ∧ Resettled K v v₁ (h := 0) b b' ∧
      Branch.keys b' = keptKeys v.maxSize.toNat key (h := 0) b ∧
      BTree.merge (b.child key).pid ((b.pid, if b.goesFirst key then 0 else -1) :: rest) s =
        BTree.mergeTail b.pid (node (h := 1) b') root rest s₁ := by
  by_cases hj : Joins v.maxSize.toNat key b
  · obtain ⟨htwo, hfit⟩ := hset hj
    obtain ⟨hne, hle⟩ := hj
    rw [keptKeys, if_pos ⟨hne, hle⟩]
    cases hg : b.goesFirst key with
    | true =>
      obtain ⟨f, sep, ks, hks, hf⟩ := Branch.child_of_first hg
      obtain ⟨pid, flags, next, kids, last⟩ := b
      obtain rfl : kids = (f, sep) :: ks := hks
      obtain ⟨⟨g, s₂⟩, ks, rfl⟩ := List.exists_cons_of_length_pos (show 0 < ks.length from Nat.le_of_succ_le_succ htwo)
      rw [JoinFits, Branch.neighbour_first hg, hf] at hfit
      rw [Branch.neighbour_first hg] at hne hle
      rw [hf] at hle ⊢
      obtain ⟨v₁, s₁, hs₁, hreb, hrun⟩ := merge_firstTakes hs hv hb ho hne hle hfit rest
      exact ⟨v₁, _, _, s₁, hs₁, hreb, rfl, hrun⟩
    | false =>
      have hl := Branch.child_of_last hg
      obtain ⟨pid, flags, next, kids, last⟩ := b
      obtain ⟨ks, ⟨f, sep⟩, rfl⟩ : ∃ ks x, kids = ks ++ [x] :=
        ⟨_, _, (List.dropLast_append_getLast (show kids ≠ [] from hb.keyed.1)).symm⟩
      have hks : ks ≠ [] := by
        rintro rfl
        simp at htwo
      rw [JoinFits, Branch.neighbour_last hg, hl] at hfit
      rw [Branch.neighbour_last hg] at hne hle
      rw [hl] at hle ⊢
      obtain ⟨v₁, s₁, hs₁, hreb, hrun⟩ := merge_lastGiven hs hv hb ho hks hne hle hfit rest
      exact ⟨v₁, _, _, s₁, hs₁, hreb, by simp [Branch.keys], hrun⟩
  · obtain ⟨root, s₁, hs₁, hrun⟩ := merge_keepsLeaves hs hb hj rest
    exact ⟨v, b, root, s₁, hs₁, ⟨.refl hb.stored, ho, .refl _, rfl, hv⟩, by rw [keptKeys, if_neg hj], hrun⟩

/-- **The merges below the root.** Where they settle, the tree is stored again in order, and `merge` goes on above
it. -/
theorem climb_resettles {b : Tree (h + 1)} (hs : ShowsFit s v) (hv : v.Fitting) (hb : Ready v b)
    (ho : Ordered K b) (hset : Settles v.maxSize.toNat key b) (rest : List Crumb) :
    ∃ v₁ b' root s₁, ShowsFit s₁ v₁ ∧ Resettled K v v₁ b b' ∧ Branch.keys b' = keptKeys v.maxSize.toNat key b ∧
      BTree.merge (route key b).pid (crumbs key b ++ rest) s = BTree.mergeTail b.pid b'.node root rest s₁ := by
  induction h generalizing rest with
  | zero => exact merge_resettles hs hv hb ho hset rest
  | succ h ih =>
    obtain ⟨hbelow, hapart⟩ := hset
    obtain ⟨v₁, c, root₁, s₁, hs₁, hc, hkeys, hrun⟩ := ih (hb.child key) (ho.child key) hbelow
      ((Branch.pid b, if Branch.goesFirst key b then 0 else -1) :: rest)
    rw [StaysApart, ← hkeys, ← hc.same.maxSize] at hapart
    obtain ⟨root, s₂, hs₂, hrun₂⟩ := merge_keepsInner hs₁ hb hc.toRebuilt hapart rest
    refine ⟨v₁, Branch.setChild key b c, root, s₂, hs₂, hc.setChild hb ho, Branch.setChild_keys .., ?_⟩
    have heq : node (h := h + 2) (Branch.setChild key b c) = node (h := h + 2) b := node_setChild key b hc.pid
    have hbase : BTree.merge c.pid ((Branch.pid b, if Branch.goesFirst key b then 0 else -1) :: rest) s₁ =
        BTree.mergeTail (Branch.pid b) (node (h := h + 2) b) root rest s₂ := hrun₂
    rw [merge_climb, hrun]
    rw [hc.pid] at hbase
    exact hbase.trans (by rw [← heq]; rfl)

end Merge

/-! ## The index -/

/-- The last node below the neighbour names the first one below the child that the search goes to. -/
def Tree.SeamLinked (key : BTreeKey) {h : Nat} (b : Branch (Tree (h + 1))) : Prop :=
  ∀ d ∈ (Branch.children (b.child key)).head?, (Branch.last (b.neighbour key)).node.next = d.pid

/-- All merges from the leaf of the search up to the root go well, and leave the nodes next to their neighbours. -/
def Tree.FinishesLinked (m : Nat) (key : BTreeKey) : {h : Nat} → Tree h → Prop
  | 0, _ => True
  | 1, b => Finishes m key (h := 1) b
  | _ + 2, b => Settles m key (Branch.child key b) ∧
    (StaysApart m key b ∨ FusesAtRoot m key b ∧ SeamLinked key b)

/-- The index `s` is the tree `t`, which is in order, and its nodes fit in their pages. -/
structure Orderly (K : BTreeKey → Prop) (s : BTree Disk) (v : View) {h : Nat} (t : Tree h) : Prop where
  shows : ShowsFit s v
  tidy : v.Tidy
  fitting : v.Fitting
  held : Held v t
  ordered : Ordered K t

section Orderly

variable {s s' : BTree Disk} {v v' : View} {K : BTreeKey → Prop} {key : BTreeKey} {h h' : Nat} {t : Tree h}

theorem Orderly.ready (ho : Orderly K s v t) : Ready v t :=
  ho.ordered.ready ho.fitting ho.held.stored ho.held.nodup

theorem Tree.Resettled.orderly {b b' : Tree (h + 1)} (ho : Orderly K s v b) (hr : Resettled K v v' b b')
    (hs : ShowsFit s' v') : Orderly K s' v' b' :=
  ⟨hs, hr.same.tidy ho.tidy, hr.fitting, hr.toRebuilt.held ho.held, hr.ordered⟩

/-- The index `s'` is a tree that is in order and no higher than `h`, with these records. -/
def LeavesOrdered (K : BTreeKey → Prop) (v : View) (h : Nat) (recs : List (BTreeKey × RID)) (s' : BTree Disk) : Prop :=
  ∃ v' h', ∃ t' : Tree h', Orderly K s' v' t' ∧ v'.maxSize = v.maxSize ∧ h' ≤ h ∧ t'.records = recs

/-- The merge below a root above leaves. -/
theorem Orderly.mergeTwo {b : Branch Leaf} (ho : Orderly K s v (h := 1) b)
    (hfin : Finishes v.maxSize.toNat key (h := 1) b) :
    ∃ s', BTree.merge (b.child key).pid [(b.pid, if b.goesFirst key then 0 else -1)] s = (.ok (), s') ∧
      LeavesOrdered K v 1 (records (h := 1) b) s' := by
  have hb := ho.ready
  have hkeys : b.keys ≠ [] := by simpa [Branch.keys] using (show b.kids ≠ [] from hb.keyed.1)
  by_cases hset : Settles v.maxSize.toNat key (h := 0) b
  · obtain ⟨v₁, b', root, s₁, hs₁, hreb, hkept, hrun⟩ := merge_resettles ho.shows ho.fitting hb ho.ordered hset []
    have hne : (node (h := 1) b').keys ≠ [] := by
      rw [show (node (h := 1) b').keys = Branch.keys b' from rfl, hkept]
      exact hset.keptKeys_ne hkeys
    rw [BTree.mergeTail_nil_of_ne hne] at hrun
    exact ⟨s₁, hrun, v₁, 1, b', hreb.orderly ho hs₁, hreb.same.maxSize, Nat.le_refl 1, hreb.records⟩
  · rw [Settles, Classical.not_imp] at hset
    obtain ⟨hj, hnot⟩ := hset
    obtain ⟨hroom, hfit⟩ := hfin hj
    have hone : b.kids.length = 1 := by
      have hpos := List.length_pos_iff.mpr (show b.kids ≠ [] from hb.keyed.1)
      by_contra hne
      exact hnot ⟨by omega, hfit⟩
    have hg := hroom.resolve_left (by omega)
    have hl := Branch.child_of_last hg
    obtain ⟨hne, hle⟩ := hj
    obtain ⟨pid, flags, next, kids, last⟩ := b
    obtain ⟨⟨f, sep⟩, rfl⟩ := List.length_eq_one_iff.mp (show kids.length = 1 from hone)
    rw [JoinFits, Branch.neighbour_onlyLast hg, hl] at hfit
    rw [Branch.neighbour_onlyLast hg] at hne hle
    rw [hl] at hle ⊢
    rw [hg, if_neg (by simp)]
    obtain ⟨v₁, s₁, hrun, hs₁, hv₁, hheld, hmax, htidy⟩ := merge_onlyTakes ho.shows ho.fitting hb hne hle hfit
    exact ⟨s₁, hrun, v₁, 0, _, ⟨hs₁, htidy ho.tidy, hv₁, hheld, ho.ordered.joinOnly⟩, hmax, Nat.zero_le 1,
      (records_joinOnly ..)⟩

/-- The merges below a root above inner nodes. -/
theorem Orderly.mergeMore {b : Tree (h + 2)} (ho : Orderly K s v b) (hfin : FinishesLinked v.maxSize.toNat key b) :
    ∃ s', BTree.merge (route key b).pid (crumbs key b) s = (.ok (), s') ∧
      LeavesOrdered K v (h + 2) b.records s' := by
  have hb := ho.ready
  have hk : Branch.kids b ≠ [] := hb.keyed.1
  have hne : (node (h := h + 2) b).keys ≠ [] := by simpa [node, Branch.keys] using hk
  obtain ⟨hbelow, htop⟩ := hfin
  obtain ⟨v₁, c, root₁, s₁, hs₁, hc, hkeys, hrun₁⟩ := climb_resettles ho.shows ho.fitting (hb.child key)
    (ho.ordered.child key) hbelow [(Branch.pid b, if Branch.goesFirst key b then 0 else -1)]
  have hclimb := merge_climb key b [] s
  rw [List.append_nil] at hclimb
  have hstep : BTree.merge (route key b).pid (crumbs key b) s =
      BTree.merge c.pid [(Branch.pid b, if Branch.goesFirst key b then 0 else -1)] s₁ := by
    rw [hclimb, hrun₁, hc.pid]
    rfl
  have hreb := hc.setChild hb ho.ordered
  rw [hstep]
  by_cases hapart : StaysApart v.maxSize.toNat key b
  · rw [StaysApart, ← hkeys, ← hc.same.maxSize] at hapart
    obtain ⟨root, s₂, hs₂, hrun₂⟩ := merge_keepsInner hs₁ hb hc.toRebuilt hapart []
    rw [BTree.mergeTail_nil_of_ne hne] at hrun₂
    exact ⟨s₂, hrun₂, v₁, h + 2, _, hreb.orderly ho hs₂, hreb.same.maxSize, Nat.le_refl _, hreb.records⟩
  · obtain ⟨⟨hg, hone, hfit⟩, hseam⟩ := htop.resolve_left hapart
    have hset := hreb.orderly ho hs₁
    rw [StaysApart, ← hkeys, ← hc.same.maxSize] at hapart
    obtain ⟨pid, flags, next, kids, last⟩ := b
    obtain ⟨⟨l, k⟩, rfl⟩ := List.length_eq_one_iff.mp (show kids.length = 1 from hone)
    rw [Branch.setChild_of_last hg] at hset
    rw [Branch.neighbour_onlyLast hg, ← hkeys] at hfit
    rw [Branch.neighbour_onlyLast hg] at hapart
    rw [SeamLinked, Branch.neighbour_onlyLast hg] at hseam
    rw [hg, if_neg (by simp)]
    obtain ⟨v₂, s₂, hrun₂, hs₂, hv₂, hheld, hmax, htidy⟩ := merge_fusesChildren hs₁ hc.fitting hset.held
      (Nat.le_of_not_lt hapart) hfit
    have hfirst : ∀ d ∈ (Branch.children c).head?, (Branch.last l).node.next = d.pid := by
      intro d hd
      have hmap := hc.first
      rw [Option.mem_def.mp hd, Option.map_some] at hmap
      obtain ⟨e, he, hpid⟩ := Option.map_eq_some_iff.mp hmap.symm
      exact (hseam e he).trans hpid
    refine ⟨s₂, hrun₂, v₂, h + 1, _, ⟨hs₂, htidy hset.tidy, hv₂, hheld, hset.ordered.fuse hfirst⟩,
      hmax.trans hreb.same.maxSize, Nat.le_succ _, ?_⟩
    rw [← hreb.records, Branch.setChild_of_last hg]
    simp [records_branch, Branch.children, Branch.fuse]

/-- The merges after a record was taken out. -/
theorem Orderly.merges (ho : Orderly K s v t) (hfin : FinishesLinked v.maxSize.toNat key t) :
    ∃ s', BTree.removeTail (route key t).pid (crumbs key t) s = (.ok (), s') ∧
      LeavesOrdered K v h t.records s' := by
  match h, t with
  | 0, t => exact ⟨s, rfl, v, 0, t, ho, rfl, Nat.le_refl 0, rfl⟩
  | 1, t => exact ho.mergeTwo hfin
  | h + 2, t =>
    have htail : BTree.removeTail (route key t).pid (crumbs key t) = BTree.merge (route key t).pid (crumbs key t) := by
      obtain ⟨rest, hrest⟩ := crumbs_eq_cons key t
      rw [hrest]
      rfl
    rw [htail]
    exact ho.mergeMore hfin

/-- The record is taken out of its leaf. -/
theorem Orderly.without (ho : Orderly K s v t) (hkey : key ∈ (route key t).node.keys) :
    ∃ s₁, BTree.remove key s = BTree.removeTail (route key t).pid (crumbs key t) s₁ ∧
      Orderly K s₁ (v.put (route key t).pid ((route key t).erase key).node) (t.without key) := by
  have hpath := ho.held.root ▸ ho.held.stored.path ho.ordered.keyed key
  have hlen : (crumbs key t).length < 2 ^ 32 := by
    rw [crumbs_length]
    exact ho.held.stored.height_lt
  have hsorted : ((route key t).records.map (·.1)).Pairwise BTreeKey.Lt := by
    refine ho.ordered.toSorted.sorted.sublist (List.Sublist.map _ ?_)
    rw [records_eq key t]
    exact (List.sublist_append_left _ _).trans (List.sublist_append_right _ _)
  obtain ⟨hp0, hpn, hleaf⟩ := hpath.leaf_spec
  obtain ⟨hpair, hcount, -⟩ := ho.shows.paired hp0 hpn
  obtain ⟨hpair', hcount'⟩ := BTreePage.dropRecord_paired hleaf hpair hcount
    (BTree.keyIndex (route key t).node.keys key)
  have hrun := remove_eq ho.shows.shows hpath hlen hkey
  rw [← node_erase hsorted] at hrun hpair' hcount'
  have hfit : ((route key t).erase key).node.FitsPage :=
    (ho.fitting _ _ hp0 hpn).sublist rfl (List.filter_sublist.map _)
  obtain ⟨s₁, hr₁, hs₁⟩ := BTree.flushNode_fit ho.shows hp0 (ho.shows.live_of_node hp0 hpn) hpair' hfit
  rw [BTreePage.trim_eq_self hcount'] at hs₁
  rw [Prog.bind_ok hr₁] at hrun
  exact ⟨s₁, hrun, hs₁, ho.tidy.put _ _, ho.fitting.put _ hfit, ho.held.setLeaf (l := (route key t).erase key) rfl,
    ho.ordered.without hkey⟩

/-- **Removal from a sorted tree.** If the search finds the key and the merges finish, the removal completes, takes out
the record of the key, and leaves a sorted tree. -/
theorem Orderly.remove (ho : Orderly K s v t) (hkey : key ∈ (route key t).node.keys)
    (hfin : FinishesLinked v.maxSize.toNat key (t.without key)) :
    ∃ s', BTree.remove key s = (.ok (), s') ∧
      LeavesOrdered K v h (t.records.filter fun r => r.1 ≠ key) s' := by
  obtain ⟨s₁, hrun, ho₁⟩ := ho.without hkey
  have hroute : route key (t.without key) = (route key t).erase key := route_setLeaf ..
  have hcrumbs : crumbs key (t.without key) = crumbs key t := crumbs_setLeaf t rfl
  obtain ⟨s', hmerges, hleaves⟩ := ho₁.merges hfin
  rw [hroute, hcrumbs] at hmerges
  refine ⟨s', hrun.trans hmerges, ?_⟩
  rw [← records_erase ho.ordered.toSorted.sorted hkey]
  exact hleaves

end Orderly

end SomeDB
