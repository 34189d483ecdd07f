import SomeDB.Index.Order

/-!
# Insertion into a sorted tree

`Tree.Sorted K t`: the records of `t` are ascending, its separators bound them, and all keys are from
the totally ordered set `K`. Putting a new key into the leaf of an outer search keeps the tree sorted
(`Sorted.insert`). The splits only cut nodes, so they keep the records and the order: `cutLast` cuts
the last leaf of a branch, `cutLeaf` the leaf that is the root, `cutBranch` the branch that is the root.
-/

namespace SomeDB

open Lib

/-! ## A record in a leaf -/

/-- A key that is not in an ascending list is put in where it belongs. -/
theorem PlaceOf.lt {key : BTreeKey} {keys : List BTreeKey} {i : Nat} (hi : PlaceOf key keys i)
    (hs : keys.Pairwise BTreeKey.Lt) (hnew : ∀ k ∈ keys, cmpKeys k key ≠ 0) :
    (∀ k ∈ keys.take i, BTreeKey.Lt k key) ∧ ∀ k ∈ keys.drop i, BTreeKey.Lt key k := by
  obtain ⟨hle, hlo, hhi, -⟩ := hi
  constructor
  · intro k hk
    obtain ⟨j, hj, rfl⟩ := List.getElem_of_mem hk
    rw [List.length_take] at hj
    have hlt : i - 1 < keys.length := by omega
    rw [List.getElem_take]
    have hprev : BTreeKey.Lt keys[i - 1] key := by
      have h₁ := hlo keys[i - 1] (by omega) (List.getElem?_eq_getElem hlt)
      have h₂ := hnew keys[i - 1] (List.getElem_mem hlt)
      have h₃ := cmpKeys_swap keys[i - 1] key
      exact BTreeKey.cmpKeys_pos.mp (by omega)
    rcases Nat.lt_or_ge j (i - 1) with hji | hji
    · exact BTreeKey.lt_trans (List.pairwise_iff_getElem.mp hs j (i - 1) (by omega) hlt hji) hprev
    · have : j = i - 1 := by omega
      subst this
      exact hprev
  · intro k hk
    obtain ⟨j, hj, rfl⟩ := List.getElem_of_mem hk
    rw [List.length_drop] at hj
    have hlt : i < keys.length := by omega
    rw [List.getElem_drop]
    have hcur : BTreeKey.Lt key keys[i] := by
      have h₁ := hhi keys[i] (List.getElem?_eq_getElem hlt)
      have h₂ := hnew keys[i] (List.getElem_mem hlt)
      have h₃ := cmpKeys_swap keys[i] key
      show cmpKeys key keys[i] < 0
      omega
    rcases Nat.eq_zero_or_pos j with rfl | hpos
    · exact hcur
    · exact BTreeKey.lt_trans hcur
        (List.pairwise_iff_getElem.mp hs i (i + j) hlt (by omega) (by omega))

namespace Leaf

/-- The leaf with a record put in at `i`. -/
def add (l : Leaf) (i : Nat) (key : BTreeKey) (val : RID) : Leaf :=
  { l with records := putAt l.records i (key, val) }

/-- The leaf without its upper half, with `next` as its successor. -/
def lower (l : Leaf) (next : PageId) : Leaf :=
  { l with next, records := l.records.take (l.records.length / 2) }

/-- The upper half of the leaf, at page `pid`. -/
def upper (l : Leaf) (pid next : PageId) (u : Uninit) : Leaf :=
  { pid, flags := u.flags, rightmostPtr := u.rightmostPtr, next,
    records := l.records.drop (l.records.length / 2) }

theorem node_add (l : Leaf) (i : Nat) (key : BTreeKey) (val : RID) :
    (l.add i key val).node = l.node.addRecord i key val := by
  simp [add, node, BTreePage.addRecord, putAt_map]

theorem node_lower (l : Leaf) (next : PageId) :
    (l.lower next).node = { l.node.lowerHalf with next := next } := by
  simp [lower, node, BTreePage.lowerHalf, List.map_take]

theorem node_upper (l : Leaf) (pid next : PageId) (u : Uninit) :
    (l.upper pid next u).node = { l.node.upperHalf (BTreePage.new true u) with next := next } := by
  simp [upper, node, BTreePage.upperHalf, BTreePage.new, List.map_drop]

theorem lower_append_upper (l : Leaf) (pid next next' : PageId) (u : Uninit) :
    (l.lower next).records ++ (l.upper pid next' u).records = l.records :=
  List.take_append_drop ..

/-- The halves of a leaf lie on the two sides of its middle key. -/
theorem halves_bounded {l : Leaf} {mid : BTreeKey} (hs : (l.records.map (·.1)).Pairwise BTreeKey.Lt)
    (hmid : (l.records.map (·.1))[l.records.length / 2]? = some mid) :
    (∀ r ∈ l.records.take (l.records.length / 2), BTreeKey.Lt r.1 mid) ∧
      ∀ r ∈ l.records.drop (l.records.length / 2), ¬ BTreeKey.Lt r.1 mid := by
  obtain ⟨hlt, rfl⟩ := List.getElem?_eq_some_iff.mp hmid
  have hlen : (l.records.map (·.1)).length = l.records.length := List.length_map ..
  have hget : ∀ {a b : Nat} (ha : a < l.records.length) (hb : b < l.records.length), a < b →
      BTreeKey.Lt l.records[a].1 l.records[b].1 := by
    intro a b ha hb hab
    have := List.pairwise_iff_getElem.mp hs a b (by omega) (by omega) hab
    simpa using this
  simp only [List.getElem_map]
  constructor
  · intro r hr
    obtain ⟨j, hj, rfl⟩ := List.getElem_of_mem hr
    rw [List.length_take] at hj
    rw [List.getElem_take]
    exact hget (by omega) (by omega) (by omega)
  · intro r hr
    obtain ⟨j, hj, rfl⟩ := List.getElem_of_mem hr
    rw [List.length_drop] at hj
    rw [List.getElem_drop]
    rcases Nat.eq_zero_or_pos j with rfl | hpos
    · exact BTreeKey.lt_irrefl _
    · exact BTreeKey.lt_asymm (hget (by omega) (by omega) (by omega))

end Leaf

/-! ## Sorted trees -/

namespace Tree

variable {K : BTreeKey → Prop} {key : BTreeKey} {val : RID}

/-- A sorted tree over the keys `K`. -/
structure Sorted (K : BTreeKey → Prop) {h : Nat} (t : Tree h) : Prop where
  keyed : Keyed t
  separated : Separated t
  sorted : (t.records.map (·.1)).Pairwise BTreeKey.Lt
  recK : ∀ r ∈ t.records, K r.1
  sepK : ∀ s ∈ t.seps, K s

theorem Keyed.setLeaf {h : Nat} {t : Tree h} (hk : Keyed t) (l : Leaf) : Keyed (setLeaf key t l) := by
  induction h with
  | zero => trivial
  | succ h ih =>
    obtain ⟨hne, hsorted, hkids⟩ := hk
    have hkeys : (Branch.setChild key t (Tree.setLeaf key (Branch.child key t) l)).keys =
        Branch.keys t := Branch.setChild_keys ..
    refine ⟨?_, ?_, Branch.forall_setChild hkids (ih (hkids _ (Branch.child_mem key t)))⟩
    · intro hnil
      apply hne
      have : (Branch.keys t).length = 0 := by
        rw [← hkeys, Branch.keys, List.length_map]
        exact List.length_eq_zero_iff.mpr hnil
      simpa [Branch.keys] using this
    · exact hkeys ▸ hsorted

theorem seps_setLeaf {h : Nat} (t : Tree h) (l : Leaf) : (setLeaf key t l).seps = t.seps := by
  induction h with
  | zero => rfl
  | succ h ih =>
    show (Branch.setChild key t _).keys ++ (Branch.setChild key t _).children.flatMap seps =
      Branch.keys t ++ (Branch.children t).flatMap seps
    rw [Branch.setChild_keys, Branch.children_setChild, Branch.children_eq key t]
    simp only [List.flatMap_append, List.flatMap_cons, ih]

/-- The records with a new one put in. -/
theorem mem_records_add {h : Nat} {t : Tree h} {i : Nat} {r : BTreeKey × RID} :
    r ∈ (setLeaf key t ((route key t).add i key val)).records ↔ r = (key, val) ∨ r ∈ t.records := by
  rw [records_setLeaf, records_eq key t]
  simp only [Leaf.add, List.mem_append, mem_putAt]
  tauto

/-- Putting a new key into the leaf of an outer search. -/
theorem Sorted.insert (hK : TotalOn K) (hkey : K key) {h : Nat} {t : Tree h} (ht : Sorted K t)
    (ho : Outer key t) (hnew : ∀ k ∈ (route key t).node.keys, cmpKeys k key ≠ 0) {i : Nat}
    (hi : PlaceOf key (route key t).node.keys i) (val : RID) :
    Sorted K (setLeaf key t ((route key t).add i key val)) where
  keyed := ht.keyed.setLeaf _
  separated := ht.separated.setLeaf ht.keyed ho fun r hr =>
    (mem_putAt.mp hr).elim (fun h => .inr (by rw [h])) .inl
  sorted := by
    have hbefore := ho.before_lt hK hkey ht.keyed ht.separated ht.sepK
    have hafter := ho.lt_after hK ht.keyed ht.separated ht.sepK ht.recK
    have hsorted := ht.sorted
    rw [records_eq key t, List.map_append, List.map_append, List.pairwise_append,
      List.pairwise_append] at hsorted
    obtain ⟨h₁, ⟨h₂, h₃, h₂₃⟩, h₁₂⟩ := hsorted
    obtain ⟨hlo, hhi⟩ := hi.lt h₂ hnew
    have hput : (putAt ((route key t).records.map (·.1)) i key).Pairwise BTreeKey.Lt := by
      rw [putAt, List.pairwise_append, List.pairwise_cons]
      refine ⟨h₂.sublist (List.take_sublist ..), ⟨hhi, h₂.sublist (List.drop_sublist ..)⟩, ?_⟩
      intro a ha b hb
      rcases List.mem_cons.mp hb with rfl | hb
      · exact hlo a ha
      · exact BTreeKey.lt_trans (hlo a ha) (hhi b hb)
    rw [records_setLeaf, List.map_append, List.map_append, List.pairwise_append,
      List.pairwise_append]
    have hadd : ((route key t).add i key val).records.map (·.1) =
        putAt ((route key t).records.map (·.1)) i key := putAt_map ..
    rw [hadd]
    simp only [List.mem_append] at h₁₂ ⊢
    refine ⟨h₁, ⟨hput, h₃, ?_⟩, ?_⟩
    · intro a ha b hb
      rcases mem_putAt.mp ha with rfl | ha
      · obtain ⟨r, hr, rfl⟩ := List.mem_map.mp hb
        exact hafter r hr
      · exact h₂₃ a ha b hb
    · intro a ha b hb
      rcases hb with hb | hb
      · rcases mem_putAt.mp hb with rfl | hb
        · obtain ⟨r, hr, rfl⟩ := List.mem_map.mp ha
          exact hbefore r hr
        · exact h₁₂ a ha b (.inl hb)
      · exact h₁₂ a ha b (.inr hb)
  recK r hr := by
    rcases mem_records_add.mp hr with rfl | hr
    · exact hkey
    · exact ht.recK r hr
  sepK s hs := ht.sepK s (by rwa [seps_setLeaf] at hs)

theorem Sorted.child {h : Nat} {b : Branch (Tree h)} (hb : Sorted (h := h + 1) K b) {c : Tree h}
    (hc : c ∈ b.children) : Sorted K c where
  keyed := hb.keyed.2.2 c hc
  separated := hb.separated.2 c hc
  sorted := by
    obtain ⟨l₁, l₂, hl⟩ := List.append_of_mem hc
    refine hb.sorted.sublist (List.Sublist.map _ ?_)
    rw [records_branch b, hl, List.flatMap_append, List.flatMap_cons]
    exact (List.sublist_append_left _ _).trans (List.sublist_append_right _ _)
  recK r hr := hb.recK r (records_child_subset hc r hr)
  sepK s hs := hb.sepK s (seps_child_subset hc s hs)

theorem records_setChild (key : BTreeKey) {h : Nat} (b : Branch (Tree h)) {c c' : Tree h}
    (hr : c'.records = c.records) :
    records (h := h + 1) (b.setChild key c') = records (h := h + 1) (b.setChild key c) := by
  rw [records_branch, records_branch, Branch.children_setChild, Branch.children_setChild,
    List.flatMap_append, List.flatMap_append, List.flatMap_cons, List.flatMap_cons, hr]

/-- A child may be replaced by a sorted tree with the same records. -/
theorem Sorted.setChild {h : Nat} {b : Branch (Tree h)} {c c' : Tree h}
    (hb : Sorted (h := h + 1) K (b.setChild key c)) (hc : Sorted K c') (hr : c'.records = c.records) :
    Sorted (h := h + 1) K (b.setChild key c') := by
  have hother : ∀ d, d ∈ b.left key ∨ d ∈ b.right key → d ∈ (b.setChild key c).children := by
    intro d hd
    rw [Branch.children_setChild]
    simp only [List.mem_append, List.mem_cons]
    tauto
  have hforall : ∀ {P : Tree h → Prop}, (∀ d ∈ (b.setChild key c).children, P d) → P c' →
      ∀ d ∈ (b.setChild key c').children, P d := by
    intro P hP hc' d hd
    rw [Branch.children_setChild, List.mem_append, List.mem_cons] at hd
    rcases hd with hd | rfl | hd
    · exact hP d (hother d (.inl hd))
    · exact hc'
    · exact hP d (hother d (.inr hd))
  have hrec := records_setChild key b hr
  obtain ⟨⟨hne, hkeys, hkids⟩, ⟨hbound, hsep⟩, hsorted, hrecK, hsepK⟩ := hb
  refine ⟨⟨?_, ?_, hforall hkids hc.keyed⟩, ⟨?_, hforall hsep hc.separated⟩, hrec ▸ hsorted, hrec ▸ hrecK,
    ?_⟩
  · rcases b with ⟨pid, flags, next, _ | ⟨⟨d, s⟩, ks⟩, last⟩
    · exact hne
    · by_cases hlt : BTreeKey.Lt key s <;> simp [Branch.setChild, hlt]
  · rw [Branch.setChild_keys] at hkeys ⊢; exact hkeys
  · rcases b with ⟨pid, flags, next, _ | ⟨⟨d, s⟩, ks⟩, last⟩
    · trivial
    · by_cases hlt : BTreeKey.Lt key s
      · simp only [Branch.setChild, if_pos hlt, Bounded, hr] at hbound ⊢
        exact hbound
      · simp only [Branch.setChild, if_neg hlt, hr] at hbound ⊢
        exact hbound
  · intro s hs
    rcases List.mem_append.mp hs with hs | hs
    · rw [Branch.setChild_keys] at hs
      exact hsepK s (List.mem_append_left _ (by rw [Branch.setChild_keys]; exact hs))
    · obtain ⟨d, hd, hsd⟩ := List.mem_flatMap.mp hs
      rw [Branch.children_setChild, List.mem_append, List.mem_cons] at hd
      rcases hd with hd | rfl | hd
      · exact hsepK s (seps_child_subset (hother d (.inl hd)) s hsd)
      · exact hc.sepK s hsd
      · exact hsepK s (seps_child_subset (hother d (.inr hd)) s hsd)

/-! ## Cuts -/

/-- The leaf cut in two below a new root. -/
def cutLeaf (l : Leaf) (mid : BTreeKey) (new root : PageId) (u w : Uninit) : Tree 1 :=
  { pid := root, flags := w.flags, next := w.next, kids := [(l.lower new, mid)],
    last := l.upper new u.next u }

/-- The branch with its last leaf cut in two. -/
def cutLast (b : Branch Leaf) (mid : BTreeKey) (new : PageId) (u : Uninit) : Tree 1 :=
  { b with kids := b.kids ++ [(b.last.lower new, mid)], last := b.last.upper new b.last.next u }

/-- The branch with the children `ks₁`, `c` with the separator `mid`, and `ks₂`, cut in two below a new
root. -/
def cutBranch {h : Nat} (b : Branch (Tree h)) (ks₁ : List (Tree h × BTreeKey)) (c : Tree h)
    (mid : BTreeKey) (ks₂ : List (Tree h × BTreeKey)) (new root : PageId) (u w : Uninit) :
    Tree (h + 2) :=
  { pid := root, flags := w.flags, next := w.next
    kids := [({ b with next := new, kids := ks₁, last := c }, mid)]
    last := { pid := new, flags := u.flags, next := u.next, kids := ks₂, last := b.last } }

theorem records_leaf (l : Leaf) : records (h := 0) l = l.records := by
  simp [records, leaves]

theorem records_cutLeaf (l : Leaf) (mid : BTreeKey) (new root : PageId) (u w : Uninit) :
    (cutLeaf l mid new root u w).records = l.records := by
  rw [cutLeaf, records_branch]
  simp [Branch.children, records_leaf, Leaf.lower_append_upper]

theorem Sorted.cutLeaf {l : Leaf} (ht : Sorted (h := 0) K l) {mid : BTreeKey}
    (hmid : (l.records.map (·.1))[l.records.length / 2]? = some mid) (new root : PageId) (u w : Uninit) :
    Sorted K (cutLeaf l mid new root u w) := by
  have hs := ht.sorted
  rw [records_leaf] at hs
  obtain ⟨hlow, hupp⟩ := Leaf.halves_bounded hs hmid
  have hmidK : K mid := by
    obtain ⟨r, hr, rfl⟩ := List.mem_map.mp (List.mem_of_getElem? hmid)
    exact ht.recK r (by rwa [records_leaf])
  have hrec := records_cutLeaf l mid new root u w
  refine ⟨⟨by simp [Tree.cutLeaf], by simp [Tree.cutLeaf, Branch.keys], ?_⟩, ⟨⟨?_, ?_, trivial⟩, ?_⟩,
    by rwa [hrec], ?_, ?_⟩
  · exact fun c _ => trivial
  · rwa [records_leaf]
  · simpa [Tree.cutLeaf, records_leaf, Leaf.upper] using fun a b hr => hupp (a, b) hr
  · exact fun c _ => trivial
  · rw [hrec]; exact fun r hr => ht.recK r (by rwa [records_leaf])
  · intro s hs'
    simp only [Tree.cutLeaf, seps, Branch.keys, Branch.children, List.map_cons, List.map_nil,
      List.flatMap_append, List.flatMap_cons, List.flatMap_nil, List.append_nil, List.mem_singleton] at hs'
    rw [hs']
    exact hmidK

theorem records_cutLast (b : Branch Leaf) (mid : BTreeKey) (new : PageId) (u : Uninit) :
    (cutLast b mid new u).records = records (h := 1) b := by
  rw [cutLast, records_branch, records_branch (h := 0) b]
  simp [Branch.children, records_leaf, Leaf.lower_append_upper]

theorem records_last_sublist (b : Branch Leaf) : b.last.records.Sublist (records (h := 1) b) := by
  rw [records_branch (h := 0) b, Branch.children, List.flatMap_append]
  simp [records_leaf]

/-- A separator is at most the first record of the last leaf, which is below the middle one. -/
theorem Sorted.lt_mid (hK : TotalOn K) {b : Branch Leaf} (hb : Sorted (h := 1) K b) {mid : BTreeKey}
    (hlen : 2 ≤ b.last.records.length)
    (hmid : (b.last.records.map (·.1))[b.last.records.length / 2]? = some mid) :
    ∀ s ∈ b.keys, BTreeKey.Lt s mid := by
  have hlow := (Leaf.halves_bounded (hb.sorted.sublist ((records_last_sublist b).map _)) hmid).1
  intro s hsk
  have hmem : b.last.records[0] ∈ b.last.records := List.getElem_mem (by omega)
  have hfirst : BTreeKey.Lt b.last.records[0].1 mid := by
    refine hlow _ (List.mem_of_getElem (i := 0) (h := ?_) (List.getElem_take ..))
    rw [List.length_take]
    omega
  have hnot : ¬ BTreeKey.Lt b.last.records[0].1 s :=
    hb.separated.1.not_lt_of_mem hsk _ (by rw [records_leaf]; exact hmem)
  rcases hK.eq_or_lt (hb.sepK s (List.mem_append_left _ hsk))
    (hb.recK _ ((records_last_sublist b).subset hmem)) hnot with heq | hlt
  · rwa [heq]
  · exact BTreeKey.lt_trans hlt hfirst

theorem Sorted.cutLast (hK : TotalOn K) {b : Branch Leaf} (hb : Sorted (h := 1) K b) {mid : BTreeKey}
    (hlen : 2 ≤ b.last.records.length)
    (hmid : (b.last.records.map (·.1))[b.last.records.length / 2]? = some mid) (new : PageId)
    (u : Uninit) : Sorted K (cutLast b mid new u) := by
  obtain ⟨hlow, hupp⟩ :=
    Leaf.halves_bounded (hb.sorted.sublist ((records_last_sublist b).map _)) hmid
  have hmidK : K mid := by
    obtain ⟨r, hr, rfl⟩ := List.mem_map.mp (List.mem_of_getElem? hmid)
    exact hb.recK r ((records_last_sublist b).subset hr)
  have hrec := records_cutLast b mid new u
  have hsmid := hb.lt_mid hK hlen hmid
  refine ⟨⟨by simp [Tree.cutLast], ?_, fun c _ => trivial⟩, ⟨?_, fun c _ => trivial⟩,
    hrec ▸ hb.sorted, hrec ▸ hb.recK, ?_⟩
  · simp only [Tree.cutLast, Branch.keys, List.map_append, List.map_cons, List.map_nil,
      List.pairwise_append, List.pairwise_singleton, List.mem_singleton, true_and]
    exact ⟨hb.keyed.2.1, fun s hs' z hz => hz ▸ hsmid s hs'⟩
  · refine bounded_append.mpr ⟨?_, ?_, ?_, trivial⟩
    · simpa [Tree.cutLast, records_leaf, Leaf.lower_append_upper] using hb.separated.1
    · rwa [records_leaf]
    · simpa [Tree.cutLast, records_leaf, Leaf.upper] using fun a b hr => hupp (a, b) hr
  · intro s hs'
    simp only [Tree.cutLast, seps, Branch.keys, List.map_append, List.map_cons, List.map_nil,
      List.mem_append, List.mem_singleton, List.mem_flatMap] at hs'
    rcases hs' with (hs' | rfl) | ⟨c, -, hc⟩
    · exact hb.sepK s (List.mem_append_left _ hs')
    · exact hmidK
    · cases hc

section CutBranch

variable {h : Nat} {b : Branch (Tree h)} {ks₁ ks₂ : List (Tree h × BTreeKey)} {c : Tree h}
  {mid : BTreeKey}

theorem records_cutBranch (hks : b.kids = ks₁ ++ (c, mid) :: ks₂) (new root : PageId) (u w : Uninit) :
    (cutBranch b ks₁ c mid ks₂ new root u w).records = records (h := h + 1) b := by
  rw [cutBranch, records_branch, records_branch b]
  simp only [Branch.children, hks, List.map_cons, List.map_nil, List.map_append, List.flatMap_append,
    List.flatMap_cons, List.flatMap_nil, List.append_nil, List.append_assoc, List.cons_append,
    List.nil_append, records_branch (h := h)]

theorem Sorted.cutBranch (hb : Sorted (h := h + 1) K b) (hks : b.kids = ks₁ ++ (c, mid) :: ks₂)
    (hne₁ : ks₁ ≠ []) (hne₂ : ks₂ ≠ []) (new root : PageId) (u w : Uninit) :
    Sorted K (Tree.cutBranch b ks₁ c mid ks₂ new root u w) := by
  have hrec := records_cutBranch hks new root u w
  obtain ⟨⟨-, hkeys, hkids⟩, ⟨hbound, hsep⟩, hsorted, hrecK, hsepK⟩ := hb
  have hmem₁ : ∀ d, d ∈ ks₁.map (·.1) ++ [c] → d ∈ b.children := by
    intro d hd
    simp only [Branch.children, hks, List.map_append, List.map_cons, List.mem_append, List.mem_cons,
      List.not_mem_nil, or_false] at hd ⊢
    tauto
  have hmem₂ : ∀ d, d ∈ ks₂.map (·.1) ++ [b.last] → d ∈ b.children := by
    intro d hd
    simp only [Branch.children, hks, List.map_append, List.map_cons, List.mem_append, List.mem_cons,
      List.not_mem_nil, or_false] at hd ⊢
    tauto
  have hkeys' : b.keys = ks₁.map (·.2) ++ mid :: ks₂.map (·.2) := by simp [Branch.keys, hks]
  rw [hkeys', List.pairwise_append, List.pairwise_cons] at hkeys
  obtain ⟨hkeys₁, ⟨-, hkeys₂⟩, hlow⟩ := hkeys
  -- the separators up to `mid`, and those after it
  have hbound₁ : Bounded records (ks₁ ++ [(c, mid)])
      (ks₂.flatMap (fun cs => cs.1.records) ++ b.last.records) := by
    have : ks₁ ++ (c, mid) :: ks₂ = (ks₁ ++ [(c, mid)]) ++ ks₂ := by simp
    rw [hks, this] at hbound
    exact (bounded_append.mp hbound).1
  have hbound₂ : Bounded records ks₂ b.last.records := by
    rw [hks] at hbound
    exact (bounded_append.mp hbound).2.2.2
  obtain ⟨hb₁, -, hupper, -⟩ := bounded_append.mp hbound₁
  have hlower := hbound₁.lt_of_mem (s := mid) (by
    simp only [List.map_append, List.map_cons, List.map_nil, List.pairwise_append,
      List.pairwise_singleton, List.mem_singleton, true_and]
    exact ⟨hkeys₁, fun s hs z hz => hz ▸ hlow s hs mid (List.mem_cons_self ..)⟩) (by simp)
  refine ⟨⟨by simp [Tree.cutBranch], by simp [Tree.cutBranch, Branch.keys], ?_⟩, ⟨⟨?_, ?_, trivial⟩, ?_⟩,
    hrec ▸ hsorted, hrec ▸ hrecK, ?_⟩
  · intro d hd
    rcases List.mem_append.mp hd with hd | hd
    · obtain rfl := List.mem_singleton.mp hd
      exact ⟨hne₁, hkeys₁, fun e he => hkids e (hmem₁ e he)⟩
    · obtain rfl := List.mem_singleton.mp hd
      exact ⟨hne₂, hkeys₂, fun e he => hkids e (hmem₂ e he)⟩
  · intro r hr
    rw [records_branch] at hr
    exact hlower r (by simpa [Branch.children, List.flatMap_map] using hr)
  · intro r hr
    rw [List.flatMap_nil, List.nil_append] at hr
    have hr' : r ∈ records (h := h + 1) (Tree.cutBranch b ks₁ c mid ks₂ new root u w).last := hr
    rw [records_branch] at hr'
    exact hupper r (by
      simpa [Tree.cutBranch, Branch.children, List.flatMap_map] using hr')
  · intro d hd
    rcases List.mem_append.mp hd with hd | hd
    · obtain rfl := List.mem_singleton.mp hd
      refine ⟨hb₁.mono fun r hr => .inl ?_, fun e he => hsep e (hmem₁ e he)⟩
      simpa using .inl hr
    · obtain rfl := List.mem_singleton.mp hd
      exact ⟨hbound₂, fun e he => hsep e (hmem₂ e he)⟩
  · intro s hs
    simp only [Tree.cutBranch, seps, Branch.keys, Branch.children, List.map_cons, List.map_nil,
      List.mem_append, List.mem_flatMap, List.mem_cons, List.not_mem_nil, or_false] at hs
    rcases hs with rfl | ⟨d, rfl | rfl, hs⟩
    · exact hsepK s (List.mem_append_left _ (by rw [hkeys']; simp))
    · rcases hs with hs | ⟨e, he, hs⟩
      · exact hsepK s (List.mem_append_left _ (by rw [hkeys']; exact List.mem_append_left _ hs))
      · exact hsepK s (seps_child_subset (hmem₁ e (by simpa using he)) s hs)
    · rcases hs with hs | ⟨e, he, hs⟩
      · exact hsepK s (List.mem_append_left _ (by
          rw [hkeys']; exact List.mem_append_right _ (List.mem_cons_of_mem _ hs)))
      · exact hsepK s (seps_child_subset (hmem₂ e (by simpa using he)) s hs)

end CutBranch

end Tree

end SomeDB
