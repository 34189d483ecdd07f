import SomeDB.Index.Grow

/-!
# Runs of insertions as a sorted map

An insertion is in order (`InOrder`) if its search takes the right child at every node and a leaf that it
has to split is the last one below its parent. A run of such insertions implements a sorted map: the
leaves, read from left to right, hold every inserted key once, in ascending order, with the record of
its first insertion, and an insertion returns 0 exactly when its key is there already.

`findLeaf` takes the first child or the last one and no other, so a key that belongs to a child in the
middle is put into the last one; and a leaf other than the last loses its upper half when it is split.
-/

namespace SomeDB

open Lib SomeDB.Tree

/-- The search for `key` takes the first child for a key below the first separator, and the last child
for a key that is not below the last separator. -/
def outerSearch (t : BTree Disk) (key : BTreeKey) : Bool :=
  match BTree.findLeaf key t with
  | (.ok (_, _, crumbs), _) => crumbs.all fun c => c.2 == 0 || (t.bpm.nodeAt c.1).any fun n =>
      n.keys.getLast?.all fun s => !decide (BTreeKey.Lt key s)
  | _ => true

/-- The insertion of `key` splits no leaf other than the last one below its parent. -/
def splitsLast (t : BTree Disk) (key : BTreeKey) : Bool :=
  match BTree.findLeaf key t with
  | (.ok (_, leaf, top :: _), _) => top.2 == -1 || leaf.keys.length < t.maxSize.toNat ||
      leaf.keys.any fun k => cmpKeys k key == 0
  | _ => true

/-- The insertion puts its key where it belongs, and overflows no node but the root. -/
def InOrder (t : BTree Disk) (op : BTreeKey × RID) : Prop :=
  1 ≤ op.1.length ∧ AllFit (BTree.insertOp op t).2 ∧ (t.rootPid ≠ 0 →
    outerSearch t op.1 = true ∧ splitsLast t op.1 = true ∧ overflowsInner t op.1 = false)

instance (t : BTree Disk) (op : BTreeKey × RID) : Decidable (InOrder t op) :=
  inferInstanceAs (Decidable (_ ∧ _))

/-- After the insertions `ops`, which returned `rs`, the index `t` is the sorted map of the first record
of each key. -/
def IsSortedMap (ops : List (BTreeKey × RID)) (rs : List PageId) (t : BTree Disk) : Prop :=
  (∃ recs, readRecords t.bpm t.rootPid = some recs ∧ (recs.map (·.1)).Pairwise BTreeKey.Lt ∧
      ∀ k r, (k, r) ∈ recs ↔ ops.lookup k = some r) ∧
    rs.length = ops.length ∧ ∀ i op r, ops[i]? = some op → rs[i]? = some r →
      (r = 0 ↔ op.1 ∈ (ops.take i).map (·.1))

/-! ## The search -/

section Search

variable {s : BTree Disk} {v : View} {key : BTreeKey} {h : Nat} {t : Tree h}

theorem outer_of_crumbs (hst : Stored v t) (hk : Keyed t)
    (hc : ∀ c ∈ crumbs key t, c.2 = 0 ∨ ∃ n, v.node c.1 = some n ∧
      ∀ z, n.keys.getLast? = some z → ¬ BTreeKey.Lt key z) : Outer key t := by
  induction h with
  | zero => trivial
  | succ h ih =>
    refine ⟨?_, ih (hst.2.2 _ (Branch.child_mem key t)) (hk.2.2 _ (Branch.child_mem key t)) fun c hc' =>
      hc c (List.mem_append_left _ hc')⟩
    rcases hc _ (List.mem_append_right _ (List.mem_singleton.mpr rfl)) with h0 | ⟨n, hn, hlast⟩
    · left
      by_contra hg
      simp [hg] at h0
    · right
      have hroot := hst.root.2
      rw [show v.node t.pid = some n from hn] at hroot
      cases hroot
      exact hlast

/-- An insertion into a tree, in the terms of its route. -/
theorem InOrder.spec (hs : Shows s v) {val : RID} (ht : Held v t) (hk : Keyed t) (hh : h ≤ 2)
    (hop : InOrder s (key, val)) : Outer key t ∧ CutsLast v key t ∧
      ((∀ k ∈ (route key t).node.keys, cmpKeys k key ≠ 0) →
        NoInnerOverflow v (route key t).node (crumbs key t)) := by
  have hpath := ht.stored.path hk key
  rw [← ht.root] at hpath
  have hlen : (crumbs key t).length < 2 ^ 32 := by rw [crumbs_length]; omega
  have hfind := findLeaf_of_path hs hpath hlen
  obtain ⟨houter, hlast, hover⟩ := hop.2.2 (by rw [hs.rootPid]; exact hpath.start.1)
  refine ⟨outer_of_crumbs ht.stored hk fun c hc => ?_, ?_, noInnerOverflow_of hs hpath hlen hover⟩
  · rw [outerSearch, hfind] at houter
    obtain ⟨hc0, n, hn, -⟩ := hpath.crumb_spec c hc
    have := List.all_eq_true.mp houter c hc
    rw [hs.node _ hc0, hn] at this
    simp only [Bool.or_eq_true, beq_iff_eq, Option.any_some] at this
    refine this.imp id fun h' => ⟨n, hn, fun z hz => ?_⟩
    rw [hz] at h'
    simpa using h'
  · intro hnew hfull c hc
    rw [splitsLast, hfind] at hlast
    cases hcs : crumbs key t with
    | nil => rw [hcs] at hc; cases hc
    | cons top rest =>
      rw [hcs] at hc hlast
      obtain rfl : top = c := by simpa using hc
      have hany : ((route key t).node.keys.any fun k => cmpKeys k key == 0) = false := by
        simpa using hnew
      simp only [hany, hs.maxSize, Bool.or_false, Bool.or_eq_true, beq_iff_eq, decide_eq_true_eq]
        at hlast
      omega

end Search

/-! ## One insertion -/

section Step

variable {s : BTree Disk} {v : View} {K : BTreeKey → Prop} {key : BTreeKey} {val : RID} {h : Nat}
  {t : Tree h}

/-- The key is in the tree exactly if the leaf of its search has it. -/
theorem Tree.Sorted.mem_iff (hK : TotalOn K) (hkey : K key) (ht : Sorted K t) (ho : Outer key t) :
    key ∈ t.records.map (·.1) ↔ ∃ k ∈ (route key t).node.keys, cmpKeys k key = 0 := by
  constructor
  · intro hmem
    obtain ⟨r, hr, rfl⟩ := List.mem_map.mp hmem
    refine ⟨r.1, ?_, cmpKeys_self _⟩
    rw [records_eq r.1 t] at hr
    rcases List.mem_append.mp hr with hr | hr
    · exact absurd (ho.before_lt hK hkey ht.keyed ht.separated ht.sepK r hr) (BTreeKey.lt_irrefl _)
    rcases List.mem_append.mp hr with hr | hr
    · exact List.mem_map_of_mem hr
    · exact absurd (ho.lt_after hK ht.keyed ht.separated ht.sepK ht.recK r hr) (BTreeKey.lt_irrefl _)
  · rintro ⟨k, hk, hcmp⟩
    obtain ⟨r, hr, rfl⟩ := List.mem_map.mp hk
    have hmem : r ∈ t.records := by
      rw [records_eq key t]
      exact List.mem_append_right _ (List.mem_append_left _ hr)
    have heq : r.1 = key := by
      have hswap := cmpKeys_swap r.1 key
      rcases hK _ _ (ht.recK r hmem) hkey with heq | hlt | hlt
      · exact heq
      · exact absurd hlt (by simp only [BTreeKey.Lt]; omega)
      · exact absurd hlt (by simp only [BTreeKey.Lt]; omega)
    exact heq ▸ List.mem_map_of_mem hmem

theorem Tree.Recut.height {m h' : Nat} {t' : Tree h'} (hcut : Recut m key t t') (hh : h ≤ 2) : h' ≤ 2 := by
  cases hcut with
  | room | last => exact hh
  | leaf => exact Nat.le_succ 1
  | branch => exact Nat.le_refl 2

/-- An insertion into an index that is a sorted tree. -/
theorem Held.insert_recut (hK : TotalOn K) (hs : Shows s v) (htidy : v.Tidy) (hm : 2 ≤ v.maxSize.toNat)
    (hshape : Shape v) (ht : Held v t) (hsorted : Sorted K t) (hh : h ≤ 2) (hkey : K key)
    (hpos : 1 ≤ key.length) (hfit : AllFit (BTree.insert key val s).2) (ho : Outer key t)
    (hcuts : CutsLast v key t) (hover : (∀ k ∈ (route key t).node.keys, cmpKeys k key ≠ 0) →
      NoInnerOverflow v (route key t).node (crumbs key t)) :
    ∃ r s' v', BTree.insert key val s = (.ok r, s') ∧ Shows s' v' ∧ v'.Tidy ∧ Shape v' ∧
      v'.maxSize = v.maxSize ∧
      ((r = 0 ∧ v' = v ∧ ∃ k ∈ (route key t).node.keys, cmpKeys k key = 0) ∨
        r ≠ 0 ∧ (∀ k ∈ (route key t).node.keys, cmpKeys k key ≠ 0) ∧
          ∃ (i : Nat) (h' : Nat) (t' : Tree h'), PlaceOf key (route key t).node.keys i ∧
            Recut v.maxSize.toNat key (Tree.setLeaf key t ((route key t).add i key val)) t' ∧
            Held v' t' ∧ Sorted K t' ∧ h' ≤ 2 ∧
            t'.records = (Tree.setLeaf key t ((route key t).add i key val)).records) := by
  have hpath := ht.stored.path hsorted.keyed key
  rw [← ht.root] at hpath
  have hlen : (crumbs key t).length < 2 ^ 32 := by rw [crumbs_length]; omega
  obtain ⟨r, s', v', hr, hs', htidy', hshape', hmax, hstep⟩ :=
    hshape.insert hs htidy hm hpath hlen hpos hover hfit
  refine ⟨r, s', v', hr, hs', htidy', hshape', hmax, ?_⟩
  rcases hstep.recut hs.sound htidy.packed hm ht hcuts (hcuts.atEnd hK hm hsorted hkey ho) with
    hdup | ⟨rfl, hnew, i, h', t', hi, hcut, ht'⟩
  · exact .inl hdup
  · obtain ⟨hsorted', hrec⟩ := hcut.sorted hm hK (hsorted.insert hK hkey ho hnew hi val)
    exact .inr ⟨hpath.leaf_spec.1, hnew, i, h', t', hi, hcut, ht', hsorted', hcut.height hh, hrec⟩

/-- What that is for the records. -/
theorem Held.insert (hK : TotalOn K) (hs : Shows s v) (htidy : v.Tidy) (hm : 2 ≤ v.maxSize.toNat)
    (hshape : Shape v) (ht : Held v t) (hsorted : Sorted K t) (hh : h ≤ 2) (hkey : K key)
    (hpos : 1 ≤ key.length) (hfit : AllFit (BTree.insert key val s).2) (ho : Outer key t)
    (hcuts : CutsLast v key t) (hover : (∀ k ∈ (route key t).node.keys, cmpKeys k key ≠ 0) →
      NoInnerOverflow v (route key t).node (crumbs key t)) :
    ∃ r s' v' h', ∃ t' : Tree h', BTree.insert key val s = (.ok r, s') ∧ Shows s' v' ∧ v'.Tidy ∧
      Shape v' ∧ v'.maxSize = v.maxSize ∧ Held v' t' ∧ Sorted K t' ∧ h' ≤ 2 ∧
      (r = 0 ↔ key ∈ t.records.map (·.1)) ∧
      ∀ x, x ∈ t'.records ↔ x ∈ t.records ∨ x = (key, val) ∧ key ∉ t.records.map (·.1) := by
  have hmem := hsorted.mem_iff hK hkey ho
  obtain ⟨r, s', v', hr, hs', htidy', hshape', hmax, hcase⟩ :=
    ht.insert_recut hK hs htidy hm hshape hsorted hh hkey hpos hfit ho hcuts hover
  rcases hcase with ⟨rfl, rfl, hdup⟩ | ⟨hr0, hnew, i, h', t', hi, -, ht', hsorted', hh', hrec⟩
  · refine ⟨0, s', v', h, t, hr, hs', htidy', hshape', hmax, ht, hsorted, hh, ?_, fun x => ?_⟩
    · simpa using hmem.mpr hdup
    · simp only [hmem.mpr hdup, not_true, and_false, or_false]
  · have hnot : key ∉ t.records.map (·.1) := fun h' => by
      obtain ⟨k, hk, h0⟩ := hmem.mp h'
      exact hnew k hk h0
    refine ⟨r, s', v', h', t', hr, hs', htidy', hshape', hmax, ht', hsorted', hh',
      iff_of_false hr0 hnot, fun x => ?_⟩
    rw [hrec, mem_records_add]
    tauto

end Step

/-! ## Runs -/

/-- The index is a sorted tree with the records of the map. -/
def Indexed (K : BTreeKey → Prop) (v : View) (ops : List (BTreeKey × RID)) : Prop :=
  (v.rootPid = 0 ∧ ops = []) ∨ ∃ (h : Nat) (t : Tree h), h ≤ 2 ∧ Held v t ∧ Sorted K t ∧
    ∀ k r, (k, r) ∈ t.records ↔ ops.lookup k = some r

/-- The leaf of a new root. -/
def newLeaf (p : PageId) : Leaf := { pid := p, flags := 0, rightmostPtr := 0, next := 0, records := [] }

theorem held_newLeaf {v : View} (h0 : v.rootPid ≠ 0) (hn : v.node v.rootPid = some View.emptyLeaf) :
    Held (h := 0) v (newLeaf v.rootPid) :=
  ⟨rfl, ⟨h0, hn⟩, List.pairwise_singleton ..⟩

theorem sorted_newLeaf (K : BTreeKey → Prop) (p : PageId) : Sorted (h := 0) K (newLeaf p) :=
  ⟨trivial, trivial, by rw [records_leaf]; exact .nil, by rw [records_leaf]; simp [newLeaf],
    by simp [seps]⟩

theorem lookup_isSome_iff_mem (ops : List (BTreeKey × RID)) (k : BTreeKey) :
    (ops.lookup k).isSome ↔ k ∈ ops.map (·.1) := by
  rw [List.lookup_isSome_iff, List.mem_map]
  exact ⟨fun ⟨p, hp, h⟩ => ⟨p, hp, (beq_iff_eq.mp h).symm⟩, fun ⟨p, hp, h⟩ => ⟨p, hp, beq_iff_eq.mpr h.symm⟩⟩

theorem mem_keys_iff_lookup {ops recs : List (BTreeKey × RID)}
    (h : ∀ k r, (k, r) ∈ recs ↔ ops.lookup k = some r) (k : BTreeKey) :
    k ∈ recs.map (·.1) ↔ k ∈ ops.map (·.1) := by
  rw [← lookup_isSome_iff_mem ops, Option.isSome_iff_exists]
  simp only [List.mem_map, Prod.exists, exists_and_right, exists_eq_right, h]

theorem Held.newIndexed {K : BTreeKey → Prop} {v : View} {h : Nat} {t : Tree h} (hh : h ≤ 2)
    (ht : Held v t) (hsorted : Sorted K t) {ops : List (BTreeKey × RID)} {key : BTreeKey} {val : RID}
    {recs : List (BTreeKey × RID)} (hold : ∀ k r, (k, r) ∈ recs ↔ ops.lookup k = some r)
    (hnew : ∀ x, x ∈ t.records ↔ x ∈ recs ∨ x = (key, val) ∧ key ∉ recs.map (·.1)) :
    Indexed K v (ops ++ [(key, val)]) := by
  refine .inr ⟨h, t, hh, ht, hsorted, fun k r => ?_⟩
  rw [hnew, mem_keys_iff_lookup hold, hold, List.lookup_append, ← lookup_isSome_iff_mem, Prod.mk.injEq]
  by_cases hkey : k = key
  · subst hkey
    rw [List.lookup_cons_self]
    cases ops.lookup k <;> simp [eq_comm]
  · have hlast : [(key, val)].lookup k = none := by
      rw [List.lookup_eq_none_iff]
      simpa using hkey
    rw [hlast, Option.or_none]
    simp [hkey]

/-- An insertion that is in order. -/
theorem InOrder.step {K : BTreeKey → Prop} (hK : TotalOn K) {s : BTree Disk} {v : View}
    (hs : Shows s v) (htidy : v.Tidy) (hm : 2 ≤ v.maxSize.toNat) (hshape : Shape v)
    {ops : List (BTreeKey × RID)} (hix : Indexed K v ops) {op : BTreeKey × RID} (hop : InOrder s op)
    (hkey : K op.1) :
    ∃ r s' v', BTree.insertOp op s = (.ok r, s') ∧ Shows s' v' ∧ v'.Tidy ∧ Shape v' ∧
      v'.maxSize = v.maxSize ∧ Indexed K v' (ops ++ [op]) ∧ (r = 0 ↔ op.1 ∈ ops.map (·.1)) := by
  obtain ⟨key, val⟩ := op
  rcases hix with ⟨hroot, rfl⟩ | ⟨h, t, hh, ht, hsorted, hold⟩
  · obtain ⟨s₁, hr₁, hs₁, htidy₁, hshape₁, hroot₁, hnode₁⟩ := hshape.createRoot hs htidy hroot
    have hrun := insert_createRoot hr₁ hs₁ hroot₁ key val
    have hfit := hop.2.1
    rw [BTree.insertOp, hrun] at hfit
    obtain ⟨r, s', v', h', t', hr, hs', htidy', hshape', hmax, ht', hsorted', hh', hr0, hnew⟩ :=
      (held_newLeaf hroot₁ hnode₁).insert hK hs₁ htidy₁ hm hshape₁ (sorted_newLeaf K _)
        (by omega) hkey hop.1 hfit trivial (fun _ _ c hc => by cases hc) fun _ => trivial
    have hold : ∀ k r, (k, r) ∈ records (h := 0) (newLeaf v.createRoot.rootPid) ↔
        ([] : List (BTreeKey × RID)).lookup k = some r := by
      intro k r
      rw [records_leaf]
      simp [newLeaf]
    refine ⟨r, s', v', hrun.trans hr, hs', htidy', hshape', hmax, ht'.newIndexed hh' hsorted' hold hnew, ?_⟩
    rw [hr0, mem_keys_iff_lookup hold]
  · obtain ⟨ho, hcuts, hover⟩ := hop.spec hs ht hsorted.keyed hh
    obtain ⟨r, s', v', h', t', hr, hs', htidy', hshape', hmax, ht', hsorted', hh', hr0, hnew⟩ :=
      ht.insert hK hs htidy hm hshape hsorted hh hkey hop.1 hop.2.1 ho hcuts hover
    refine ⟨r, s', v', hr, hs', htidy', hshape', hmax, ht'.newIndexed hh' hsorted' hold hnew, ?_⟩
    rw [hr0, mem_keys_iff_lookup hold]

/-- The records of an index that is a sorted tree. -/
theorem Indexed.readRecords {K : BTreeKey → Prop} {s : BTree Disk} {v : View} (hs : Shows s v)
    {ops : List (BTreeKey × RID)} (hix : Indexed K v ops) :
    ∃ recs, SomeDB.readRecords s.bpm s.rootPid = some recs ∧ (recs.map (·.1)).Pairwise BTreeKey.Lt ∧
      ∀ k r, (k, r) ∈ recs ↔ ops.lookup k = some r := by
  rcases hix with ⟨hroot, rfl⟩ | ⟨h, t, hh, ht, hsorted, hold⟩
  · exact ⟨[], by simp [SomeDB.readRecords, readIndex, hs.rootPid, hroot], .nil, by simp⟩
  · exact ⟨t.records, ht.readRecords hs (by omega), hsorted.sorted, hold⟩

/-- The keys of a run, if different ones are not prefixes of one another. -/
theorem totalOn_of_apart {ops : List (BTreeKey × RID)}
    (hops : ∀ a ∈ ops, ∀ b ∈ ops, a.1 ≠ b.1 → BTreeKey.Apart a.1 b.1) :
    TotalOn (· ∈ ops.map (·.1)) := by
  intro a b ha hb
  obtain ⟨x, hx, rfl⟩ := List.mem_map.mp ha
  obtain ⟨y, hy, rfl⟩ := List.mem_map.mp hb
  by_cases heq : x.1 = y.1
  · exact .inl heq
  · exact .inr (hops x hx y hy heq).lt_or_gt

/-- The invariant of a run: the index is the map of the insertions `is`, which returned `rs`. -/
def MapInv (K : BTreeKey → Prop) (m : UInt8) (is : List (BTreeKey × RID)) (rs : List PageId)
    (t : BTree Disk) : Prop :=
  (∃ v, Shows t v ∧ v.Tidy ∧ Shape v ∧ v.maxSize = m ∧ Indexed K v is) ∧ rs.length = is.length ∧
    ∀ i op r, is[i]? = some op → rs[i]? = some r → (r = 0 ↔ op.1 ∈ (is.take i).map (·.1))

theorem MapInv.step {K : BTreeKey → Prop} (hK : TotalOn K) {m : UInt8} (hm : 2 ≤ m.toNat)
    {is : List (BTreeKey × RID)} {rs : List PageId} {t : BTree Disk} {op : BTreeKey × RID}
    (hinv : MapInv K m is rs t) (hop : InOrder t op) (hkey : K op.1) :
    ∃ r t', BTree.insertOp op t = (.ok r, t') ∧ MapInv K m (is ++ [op]) (rs ++ [r]) t' := by
  obtain ⟨⟨v, hs, htidy, hshape, hmax, hix⟩, hlen, hret⟩ := hinv
  obtain ⟨r, t', v', hr, hs', htidy', hshape', hmax', hix', hr0⟩ :=
    hop.step hK hs htidy (by rw [hmax]; exact hm) hshape hix hkey
  refine ⟨r, t', hr, ⟨v', hs', htidy', hshape', hmax'.trans hmax, hix'⟩, by simp [hlen], ?_⟩
  intro i op' r' hop' hr'
  rcases getElem?_concat_cases hop' with ⟨hi, hop'⟩ | ⟨rfl, rfl⟩
  · rw [List.getElem?_append_left (by omega)] at hr'
    rw [List.take_append_of_le_length (by omega)]
    exact hret i op' r' hop' hr'
  · rw [← hlen, List.getElem?_concat_length, Option.some.injEq] at hr'
    subst hr'
    rw [List.take_left]
    exact hr0

/-- **A sorted map.** Every run of insertions on a fresh index that are in order completes and implements
a sorted map, whatever its keys are, if different ones are not prefixes of one another. -/
theorem insert_run_sortedMap (m : UInt8) (hm : 2 ≤ m.toNat) (junk : BTree Disk)
    (ops : List (BTreeKey × RID)) (hkeys : ∀ a ∈ ops, ∀ b ∈ ops, a.1 ≠ b.1 → BTreeKey.Apart a.1 b.1)
    (hops : Prog.Meets BTree.insertOp InOrder ops (BTree.opened m junk)) :
    ∃ rs t, Prog.runAll BTree.insertOp ops (BTree.opened m junk) = (.ok rs, t) ∧
      IsSortedMap ops rs t := by
  have hK := totalOn_of_apart hkeys
  have hinit : MapInv (· ∈ ops.map (·.1)) m [] [] (BTree.opened m junk) :=
    ⟨⟨View.fresh m, Shows.opened_fresh m junk, View.fresh_tidy m, .empty rfl rfl, rfl, .inl ⟨rfl, rfl⟩⟩,
      rfl, by simp⟩
  obtain ⟨rs, t, hrun, ⟨v, hs, -, -, -, hix⟩, hlen, hret⟩ := Prog.runAll_inv (MapInv _ m)
    (fun _ _ _ op hpre hinv hop => hinv.step hK hm hop (List.mem_map_of_mem (hpre.subset (by simp))))
    hinit hops
  exact ⟨rs, t, hrun, hix.readRecords hs, hlen, hret⟩

set_option maxRecDepth 4096 in
/-- Keys that go to the first leaf and to the last one, with splits of the last leaf and of the root. -/
theorem insert_run_sortedMap_split :
    ∃ rs t, Prog.runAll BTree.insertOp (byteOps [67, 68, 69, 70, 66, 67, 71, 72])
      (BTree.opened 2 .zeroMemory) = (.ok rs, t) ∧ IsSortedMap (byteOps [67, 68, 69, 70, 66, 67, 71, 72]) rs t :=
  insert_run_sortedMap 2 (by decide) .zeroMemory _ (by decide +kernel) (by decide +kernel)

set_option maxRecDepth 4096 in
/-- With at most two keys in a node, C, D and E make two leaves. B fills the first one, and A splits it:
the parent gets it twice, and B and C are lost. -/
theorem insert_run_sortedMap_fails :
    (∀ a ∈ byteOps [67, 68, 69, 66, 65], 1 ≤ a.1.length ∧
      ∀ b ∈ byteOps [67, 68, 69, 66, 65], a.1 ≠ b.1 → BTreeKey.Apart a.1 b.1) ∧
    ∃ rs t, Prog.runAll BTree.insertOp (byteOps [67, 68, 69, 66, 65]) (BTree.opened 2 .zeroMemory) =
        (.ok rs, t) ∧ AllFit t ∧ ¬ IsSortedMap (byteOps [67, 68, 69, 66, 65]) rs t := by
  obtain ⟨rs, hrun⟩ := Prog.eq_ok_of_isOk (m := Prog.runAll BTree.insertOp
    (byteOps [67, 68, 69, 66, 65])) (s := BTree.opened 2 .zeroMemory) (by decide +kernel)
  refine ⟨by decide +kernel, rs, _, hrun, by decide +kernel, ?_⟩
  rintro ⟨⟨recs, hrecs, -, hmem⟩, -⟩
  have hlost : (readRecords (Prog.runAll BTree.insertOp (byteOps [67, 68, 69, 66, 65])
      (BTree.opened 2 .zeroMemory)).2.bpm (Prog.runAll BTree.insertOp (byteOps [67, 68, 69, 66, 65])
      (BTree.opened 2 .zeroMemory)).2.rootPid).all (fun recs => (byteKey 66, ⟨66, 0⟩) ∉ recs) = true := by
    decide +kernel
  rw [hrecs] at hlost
  have := (hmem (byteKey 66) ⟨66, 0⟩).mpr (by decide +kernel)
  simp [this] at hlost

end SomeDB
