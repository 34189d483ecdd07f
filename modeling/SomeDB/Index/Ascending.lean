import SomeDB.Index.SortedMap

/-!
# Ascending insertions

A key above all others goes to the last leaf, and only the last leaf is ever split. So every other leaf
keeps the lower half of a leaf of `m + 1` keys, and the separator to the left of a leaf is the key that
was in the middle when the leaf was made, which is its first one.

Read from left to right, a tree is a row of leaves, each but the last with the separator to its right
(`flat`, `lastLeaf`). A split puts one leaf into the row and the split of the root does not change it.
-/

namespace SomeDB

open Lib SomeDB.Tree

/-! ## Rows -/

def Leaf.firstKey (l : Leaf) : Option BTreeKey := l.records.head?.map (·.1)

namespace Tree

def lastLeaf : {h : Nat} → Tree h → Leaf
  | 0, l => l
  | _ + 1, b => lastLeaf (Branch.last b)

/-- The leaves but the last, each with the separator to its right. -/
def flat : {h : Nat} → Tree h → List (Leaf × BTreeKey)
  | 0, _ => []
  | _ + 1, b =>
    (Branch.kids b).flatMap (fun cs => flat cs.1 ++ [(lastLeaf cs.1, cs.2)]) ++ flat (Branch.last b)

/-- The search for `key` takes the last child at every branch. -/
def AtLast (key : BTreeKey) : {h : Nat} → Tree h → Prop
  | 0, _ => True
  | _ + 1, b => Branch.goesFirst key b = false ∧ AtLast key (Branch.last b)

end Tree

/-- The items of a row of leaves at depth `d`. -/
def rowItems (d : Nat) (row : List (Leaf × BTreeKey)) (last : Leaf) : List Item :=
  row.flatMap (fun x => [.leaf d x.1.node, .sep x.2]) ++ [.leaf d last.node]

/-- Every leaf but the last has `half` keys, and every separator is the first key of the leaf to its
right. -/
def Ladder (half : Nat) (row : List (Leaf × BTreeKey)) (last : Leaf) : Prop :=
  (∀ x ∈ row, x.1.records.length = half) ∧
    row.map (fun x => some x.2) = (row.map (·.1) ++ [last]).tail.map Leaf.firstKey

namespace Tree

variable {key : BTreeKey} {h : Nat}

theorem items_eq_row (t : Tree h) (depth : Nat) :
    t.items depth = rowItems (depth + h) t.flat t.lastLeaf := by
  induction h generalizing depth with
  | zero => rfl
  | succ h ih =>
    have hd : depth + 1 + h = depth + (h + 1) := by omega
    simp only [items, flat, lastLeaf, ih, hd, rowItems, List.flatMap_append, List.flatMap_assoc,
      List.flatMap_cons, List.flatMap_nil, List.append_assoc, List.cons_append, List.nil_append,
      List.append_nil]

theorem atLast_of_above {t : Tree h} (hk : Keyed t) (habove : ∀ s ∈ t.seps, BTreeKey.Lt s key) :
    AtLast key t ∧ Outer key t ∧ ∀ c ∈ crumbs key t, c.2 = -1 := by
  induction h with
  | zero => exact ⟨trivial, trivial, by simp [crumbs]⟩
  | succ h ih =>
    have hgo : Branch.goesFirst key t = false := by
      rcases t with ⟨pid, flags, next, _ | ⟨⟨c, s⟩, ks⟩, last⟩
      · rfl
      · have := habove s (by simp [seps, Branch.keys])
        simpa [Branch.goesFirst] using BTreeKey.lt_asymm this
    have hchild : Branch.child key t = Branch.last t := Branch.child_of_last hgo
    have hmem : Branch.last t ∈ Branch.children t := hchild ▸ Branch.child_mem key t
    obtain ⟨hl, ho, hc⟩ := ih (hk.2.2 _ hmem) fun s hs => habove s (seps_child_subset hmem s hs)
    refine ⟨⟨hgo, hl⟩, ⟨.inr fun s hs => ?_, hchild ▸ ho⟩, fun c hc' => ?_⟩
    · exact BTreeKey.lt_asymm (habove s (List.mem_append_left _ (List.mem_of_getLast? hs)))
    · rcases List.mem_append.mp hc' with hc' | hc'
      · exact hc c (hchild ▸ hc')
      · obtain rfl := List.mem_singleton.mp hc'
        simp [hgo]

theorem AtLast.child {b : Branch (Tree h)} (ha : AtLast (h := h + 1) key b) : b.child key = b.last :=
  Branch.child_of_last ha.1

theorem AtLast.route {t : Tree h} (ha : AtLast key t) : route key t = t.lastLeaf := by
  induction h with
  | zero => rfl
  | succ h ih =>
    show Tree.route key (Branch.child key t) = _
    rw [ha.child]
    exact ih ha.2

/-- Putting the last child in. -/
theorem AtLast.setChild {b : Branch (Tree h)} (ha : AtLast (h := h + 1) key b) (c : Tree h) :
    b.setChild key c = { b with last := c } :=
  Branch.setChild_of_last ha.1 c

theorem AtLast.setLeaf {t : Tree h} (ha : AtLast key t) (l : Leaf) :
    AtLast key (setLeaf key t l) ∧ (Tree.setLeaf key t l).flat = t.flat ∧
      (Tree.setLeaf key t l).lastLeaf = l := by
  induction h with
  | zero => exact ⟨trivial, rfl, rfl⟩
  | succ h ih =>
    obtain ⟨h₁, h₂, h₃⟩ := ih ha.2
    show AtLast (h := h + 1) key (Branch.setChild key t (Tree.setLeaf key (Branch.child key t) l)) ∧
      flat (h := h + 1) (Branch.setChild key t _) = _ ∧ lastLeaf (h := h + 1) (Branch.setChild key t _) = _
    rw [ha.child, ha.setChild]
    refine ⟨⟨ha.1, h₁⟩, ?_, h₃⟩
    simp only [flat, h₂]

/-- Cutting the last leaf. -/
theorem AtLast.cutRoute {t : Tree (h + 1)} (ha : AtLast key t) (mid : BTreeKey) (new : PageId)
    (u : Uninit) : (cutRoute key t mid new u).flat = t.flat ++ [(t.lastLeaf.lower new, mid)] ∧
      (Tree.cutRoute key t mid new u).lastLeaf = t.lastLeaf.upper new t.lastLeaf.next u := by
  induction h with
  | zero =>
    refine ⟨?_, rfl⟩
    simp [Tree.cutRoute, cutLast, flat, lastLeaf]
  | succ h ih =>
    obtain ⟨h₁, h₂⟩ := ih ha.2
    show flat (h := h + 2) (Branch.setChild key t (Tree.cutRoute key (Branch.child key t) mid new u)) = _ ∧
      lastLeaf (h := h + 2) (Branch.setChild key t _) = _
    rw [ha.child, ha.setChild]
    refine ⟨?_, h₂⟩
    have hflat : flat (h := h + 2) t = (Branch.kids t).flatMap
        (fun cs => flat cs.1 ++ [(lastLeaf cs.1, cs.2)]) ++ flat (Branch.last t) := rfl
    have hlast : lastLeaf (h := h + 2) t = lastLeaf (Branch.last t) := rfl
    rw [hflat, hlast, List.append_assoc, ← h₁]
    rfl

theorem flat_cutBranch {b : Branch (Tree h)} {ks₁ ks₂ : List (Tree h × BTreeKey)} {c : Tree h}
    {mid : BTreeKey} (hks : b.kids = ks₁ ++ (c, mid) :: ks₂) (new root : PageId) (u w : Uninit) :
    (cutBranch b ks₁ c mid ks₂ new root u w).flat = flat (h := h + 1) b ∧
      (cutBranch b ks₁ c mid ks₂ new root u w).lastLeaf = lastLeaf (h := h + 1) b := by
  refine ⟨?_, rfl⟩
  simp [cutBranch, flat, lastLeaf, hks]

/-- An insertion at the end of the row fills the last leaf or cuts it. -/
theorem Recut.row {m h' : Nat} {t : Tree h} {t' : Tree h'} (hcut : Recut m key t t')
    (ha : AtLast key t) :
    (t.lastLeaf.records.length ≤ m ∧ t'.flat = t.flat ∧ t'.lastLeaf = t.lastLeaf) ∨
      m < t.lastLeaf.records.length ∧ ∃ mid new next u,
        (t.lastLeaf.records.map (·.1))[t.lastLeaf.records.length / 2]? = some mid ∧
        t'.flat = t.flat ++ [(t.lastLeaf.lower new, mid)] ∧
        t'.lastLeaf = t.lastLeaf.upper new next u := by
  cases hcut with
  | room hroom => exact .inl ⟨ha.route ▸ hroom, rfl, rfl⟩
  | @leaf l mid new root u w hfull hmid => exact .inr ⟨hfull, mid, new, u.next, u, hmid, rfl, rfl⟩
  | @last h t mid new u hfull hlast hmid =>
    rw [ha.route] at hfull hmid
    obtain ⟨h₁, h₂⟩ := ha.cutRoute mid new u
    exact .inr ⟨hfull, mid, new, _, u, hmid, h₁, h₂⟩
  | @branch b mid mid' new new' root u u' w ks₁ ks₂ c hfull hlast hmid hks h₁ h₂ =>
    obtain ⟨hf, hl⟩ := flat_cutBranch (h := 0) hks new' root u' w
    obtain ⟨hf', hl'⟩ := AtLast.cutRoute (h := 0) ha mid new u
    exact .inr ⟨hfull, mid, new, _, u, hmid, hf.trans hf', hl.trans hl'⟩

end Tree

/-! ## The ladder -/

namespace Ladder

variable {half : Nat} {row : List (Leaf × BTreeKey)} {last : Leaf} {key : BTreeKey} {val : RID}

/-- In a row of more than one leaf, the last one has a key. -/
theorem firstKey_ne (hl : Ladder half row last) (hne : row ≠ []) : last.records ≠ [] := by
  obtain ⟨init, x, rfl⟩ : ∃ init x, row = init ++ [x] :=
    ⟨_, _, (List.dropLast_append_getLast hne).symm⟩
  have h := hl.2
  rw [List.tail_append_of_ne_nil (by simp), List.map_append, List.map_append] at h
  have := (List.append_inj' h rfl).2
  intro hnil
  simp [Leaf.firstKey, hnil] at this

/-- A last leaf with the same first key. -/
theorem setLast (hl : Ladder half row last) {last' : Leaf}
    (hf : last.records ≠ [] → last'.firstKey = last.firstKey) : Ladder half row last' := by
  refine ⟨hl.1, ?_⟩
  by_cases hne : row = []
  · simp [hne]
  · have h := hl.2
    have hmap : row.map (·.1) ≠ [] := by simpa using hne
    rw [List.tail_append_of_ne_nil hmap, List.map_append] at h ⊢
    rw [h, List.map_singleton, List.map_singleton, hf (hl.firstKey_ne hne)]

/-- A record above all others is put in at the end. -/
theorem add (hl : Ladder half row last) : Ladder half row (last.add last.records.length key val) := by
  refine hl.setLast fun hne => ?_
  simp only [Leaf.firstKey, Leaf.add, putAt_end, List.head?_append_of_ne_nil _ hne]

/-- The last leaf is cut. -/
theorem cut (hl : Ladder half row last) (hlen : last.records.length / 2 = half) (hpos : 1 ≤ half)
    {mid : BTreeKey} (hmid : (last.records.map (·.1))[last.records.length / 2]? = some mid)
    (new next : PageId) (u : Uninit) :
    Ladder half (row ++ [(last.lower new, mid)]) (last.upper new next u) := by
  have hle : half ≤ last.records.length := by omega
  have hlow : Ladder half row (last.lower new) := by
    refine hl.setLast fun hne => ?_
    simp only [Leaf.firstKey, Leaf.lower, hlen]
    rw [List.head?_take, if_neg (by omega)]
  have hupp : (last.upper new next u).firstKey = some mid := by
    simp only [Leaf.firstKey, Leaf.upper]
    rw [List.head?_drop, ← List.getElem?_map, hmid]
  refine ⟨fun x hx => ?_, ?_⟩
  · rcases List.mem_append.mp hx with hx | hx
    · exact hl.1 x hx
    · obtain rfl := List.mem_singleton.mp hx
      simp [Leaf.lower, hlen, hle]
  · rw [List.map_append, List.map_append, List.tail_append_of_ne_nil (by simp), List.map_append,
      hlow.2]
    simp [hupp]

end Ladder

/-! ## The items of a ladder -/

/-- The leaves among the items. -/
def leafNodes (items : List Item) : List BTreePage :=
  items.filterMap fun
    | .leaf _ n => some n
    | .sep _ => none

/-- The shape of an index of ascending insertions: the leaves give the records `ops`, they are at one
depth, all but the last have `half` keys, and the separator to the left of a leaf is its first key. -/
structure AscendingShape (half : Nat) (ops : List (BTreeKey × RID)) (items : List Item) : Prop where
  records : items.flatMap Item.records = ops
  depth : ∃ d, ∀ d' n, Item.leaf d' n ∈ items → d' = d
  sizes : ∀ n ∈ (leafNodes items).dropLast, n.keys.length = half
  seps : ∀ i d n, items[i + 1]? = some (.leaf d n) → ∃ k, items[i]? = some (.sep k) ∧ n.keys.head? = some k

theorem leafNodes_rowItems (d : Nat) (row : List (Leaf × BTreeKey)) (last : Leaf) :
    leafNodes (rowItems d row last) = row.map (·.1.node) ++ [last.node] := by
  induction row with
  | nil => rfl
  | cons x row ih =>
    have : rowItems d (x :: row) last = .leaf d x.1.node :: .sep x.2 :: rowItems d row last := by
      simp [rowItems]
    rw [this]
    simpa [leafNodes] using ih

/-- The item before a leaf. -/
theorem Ladder.seps {half : Nat} (d : Nat) {row : List (Leaf × BTreeKey)} {last : Leaf}
    (hl : Ladder half row last) : ∀ i d' n, (rowItems d row last)[i + 1]? = some (.leaf d' n) →
      ∃ k, (rowItems d row last)[i]? = some (.sep k) ∧ n.keys.head? = some k := by
  induction row with
  | nil => simp [rowItems]
  | cons x row ih =>
    obtain ⟨hsize, hchain⟩ := hl
    have hcons : rowItems d (x :: row) last = .leaf d x.1.node :: .sep x.2 :: rowItems d row last := by
      simp [rowItems]
    have hkey : ∀ l : Leaf, l.node.keys.head? = l.firstKey := fun l => List.head?_map
    -- the leaf after the separator `x.2`, and the chain of the rest
    rcases row with _ | ⟨y, row⟩
    · intro i d' n hi
      rw [hcons] at hi ⊢
      simp only [List.map_cons, List.map_nil, List.nil_append, List.cons_append, List.tail_cons,
        List.cons.injEq, and_true] at hchain
      rcases i with _ | _ | i
      · simp at hi
      · simp only [rowItems, List.flatMap_nil, List.nil_append, List.getElem?_cons_succ,
          List.getElem?_cons_zero, Option.some.injEq, Item.leaf.injEq] at hi
        exact ⟨x.2, rfl, by rw [← hi.2, hkey, hchain]⟩
      · simp [rowItems] at hi
    · simp only [List.map_cons, List.cons_append, List.tail_cons, List.cons.injEq] at hchain
      have hrest := ih ⟨fun z hz => hsize z (List.mem_cons_of_mem _ hz), by simpa using hchain.2⟩
      have hcons' : rowItems d (y :: row) last = .leaf d y.1.node :: .sep y.2 :: rowItems d row last := by
        simp [rowItems]
      intro i d' n hi
      rw [hcons] at hi ⊢
      rcases i with _ | _ | i
      · simp at hi
      · simp only [hcons', List.getElem?_cons_succ, List.getElem?_cons_zero, Option.some.injEq,
          Item.leaf.injEq] at hi
        exact ⟨x.2, rfl, by rw [← hi.2, hkey, hchain.1]⟩
      · exact hrest i d' n hi

theorem Ladder.shape {half h : Nat} {t : Tree h} (hl : Ladder half t.flat t.lastLeaf)
    {ops : List (BTreeKey × RID)} (hrec : t.records = ops) : AscendingShape half ops (t.items 0) where
  records := (t.records_items 0).trans hrec
  depth := by
    refine ⟨0 + h, fun d' n hmem => ?_⟩
    rw [items_eq_row] at hmem
    simp only [rowItems, List.mem_append, List.mem_flatMap, List.mem_cons, List.not_mem_nil, or_false,
      reduceCtorEq, Item.leaf.injEq] at hmem
    rcases hmem with ⟨x, -, hd, -⟩ | ⟨hd, -⟩
    · exact hd
    · exact hd
  sizes n hn := by
    rw [items_eq_row, leafNodes_rowItems, List.dropLast_concat] at hn
    obtain ⟨x, hx, rfl⟩ := List.mem_map.mp hn
    simpa [Leaf.node] using hl.1 x hx
  seps := by
    rw [items_eq_row]
    exact hl.seps _

/-! ## Runs -/

/-- The insertion overflows no node but the root; its key is not empty and its nodes fit. -/
def NoOverflow (t : BTree Disk) (op : BTreeKey × RID) : Prop :=
  1 ≤ op.1.length ∧ AllFit (BTree.insertOp op t).2 ∧ (t.rootPid ≠ 0 → overflowsInner t op.1 = false)

instance (t : BTree Disk) (op : BTreeKey × RID) : Decidable (NoOverflow t op) :=
  inferInstanceAs (Decidable (_ ∧ _))

/-- The invariant of a run: the index is a ladder of the insertions `is`. -/
def Laddered (m : UInt8) (is : List (BTreeKey × RID)) (v : View) : Prop :=
  (v.rootPid = 0 ∧ is = []) ∨ ∃ (h : Nat) (t : Tree h), h ≤ 2 ∧ Held v t ∧
    Sorted (· ∈ is.map (·.1)) t ∧ t.records = is ∧ Ladder ((m.toNat + 1) / 2) t.flat t.lastLeaf ∧
      t.lastLeaf.records.length ≤ m.toNat

theorem Tree.Sorted.mono {K K' : BTreeKey → Prop} {h : Nat} {t : Tree h} (ht : Sorted K t)
    (hK : ∀ k, K k → K' k) : Sorted K' t :=
  ⟨ht.keyed, ht.separated, ht.sorted, fun r hr => hK _ (ht.recK r hr), fun s hs => hK _ (ht.sepK s hs)⟩

theorem totalOn_of_pairwise {ks : List BTreeKey} (hks : ks.Pairwise BTreeKey.Lt) :
    TotalOn (· ∈ ks) := by
  intro a b ha hb
  obtain ⟨i, hi, rfl⟩ := List.getElem_of_mem ha
  obtain ⟨j, hj, rfl⟩ := List.getElem_of_mem hb
  rcases Nat.lt_trichotomy i j with hij | rfl | hij
  · exact .inr (.inl (List.pairwise_iff_getElem.mp hks i j hi hj hij))
  · exact .inl rfl
  · exact .inr (.inr (List.pairwise_iff_getElem.mp hks j i hj hi hij))

section Step

variable {s : BTree Disk} {v : View} {h : Nat} {t : Tree h} {m : UInt8} {is : List (BTreeKey × RID)}
  {key : BTreeKey} {val : RID}

theorem records_setLeaf_last (ha : AtLast key t) (l : Leaf) :
    (setLeaf key t l).records = before key t ++ l.records ∧ t.records = before key t ++ t.lastLeaf.records := by
  have hafter : after key t = [] := by
    clear l
    induction h with
    | zero => rfl
    | succ h ih =>
      show after key (Branch.child key t) ++ (Branch.right key t).flatMap Tree.records = []
      rw [ha.child, ih ha.2, Branch.right, if_neg (by simp [ha.1])]
      rfl
  refine ⟨by rw [records_setLeaf, hafter, List.append_nil], ?_⟩
  conv_lhs => rw [records_eq key t]
  rw [hafter, List.append_nil, ha.route]

/-- An insertion above all keys. -/
theorem Held.insert_above (hm : 2 ≤ m.toNat) (hs : Shows s v) (htidy : v.Tidy) (hshape : Shape v)
    (hmax : v.maxSize = m) (hK : TotalOn (· ∈ (is ++ [(key, val)]).map (·.1)))
    (habove : ∀ k ∈ is.map (·.1), BTreeKey.Lt k key) (hh : h ≤ 2) (ht : Held v t)
    (hsorted : Sorted (· ∈ is.map (·.1)) t) (hrec : t.records = is)
    (hl : Ladder ((m.toNat + 1) / 2) t.flat t.lastLeaf) (hlen : t.lastLeaf.records.length ≤ m.toNat)
    (hpos : 1 ≤ key.length) (hfit : AllFit (BTree.insert key val s).2)
    (hover : (∀ k ∈ (route key t).node.keys, cmpKeys k key ≠ 0) →
      NoInnerOverflow v (route key t).node (crumbs key t)) :
    ∃ r s' v', BTree.insert key val s = (.ok r, s') ∧ Shows s' v' ∧ v'.Tidy ∧ Shape v' ∧
      v'.maxSize = m ∧ Laddered m (is ++ [(key, val)]) v' := by
  obtain ⟨ha, ho, hc⟩ := atLast_of_above hsorted.keyed fun k hk => habove k (hsorted.sepK k hk)
  have hsorted' : Sorted (· ∈ (is ++ [(key, val)]).map (·.1)) t :=
    hsorted.mono fun k hk => by rw [List.map_append]; exact List.mem_append_left _ hk
  have hroute := ha.route
  -- the keys of the last leaf are below the new one
  have hlt : ∀ k ∈ (route key t).node.keys, BTreeKey.Lt k key := by
    intro k hk
    obtain ⟨r, hr, rfl⟩ := List.mem_map.mp hk
    refine habove _ (List.mem_map_of_mem ?_)
    rw [← hrec, records_eq key t]
    exact List.mem_append_right _ (List.mem_append_left _ hr)
  have hnodup : ¬ ∃ k ∈ (route key t).node.keys, cmpKeys k key = 0 := by
    rintro ⟨k, hk, h0⟩
    have : cmpKeys k key < 0 := hlt k hk
    omega
  obtain ⟨r, s', v', hr, hs', htidy', hshape', hmax', hcase⟩ :=
    ht.insert_recut hK hs htidy (by rw [hmax]; exact hm) hshape hsorted' hh (by simp) hpos
      hfit ho (fun _ _ c hc' => hc c (List.mem_of_mem_head? hc')) hover
  obtain ⟨-, -, i, h', t', hi, hcut, ht', hsort', hh', hrec'⟩ := hcase.resolve_left fun h => hnodup h.2.2
  obtain rfl := hi.eq_length hlt
  have hkl : (route key t).node.keys.length = t.lastLeaf.records.length := by
    rw [hroute]
    exact List.length_map ..
  obtain ⟨ha', hflat, hlast⟩ := ha.setLeaf ((route key t).add (route key t).node.keys.length key val)
  rw [hmax] at hcut
  have hrow := hcut.row ha'
  rw [hflat, hlast, hroute] at hrow
  have hl' : Ladder ((m.toNat + 1) / 2) t.flat (t.lastLeaf.add t.lastLeaf.node.keys.length key val) := by
    rw [← hroute, hkl, hroute]
    exact hl.add
  have hlen' : (t.lastLeaf.add t.lastLeaf.node.keys.length key val).records.length =
      t.lastLeaf.records.length + 1 := by
    rw [Leaf.length_add (hroute ▸ hi), ← hroute, hkl, hroute]
  refine ⟨r, s', v', hr, hs', htidy', hshape', hmax'.trans hmax, .inr ⟨h', t', hh', ht', hsort', ?_, ?_⟩⟩
  · obtain ⟨h₁, h₂⟩ := records_setLeaf_last ha
      ((route key t).add (route key t).node.keys.length key val)
    rw [hrec', h₁, hkl, hroute, Leaf.add, putAt_end, ← List.append_assoc, ← h₂, hrec]
  · rcases hrow with ⟨hle, hf, hlst⟩ | ⟨hgt, mid, new, next, u, hmid, hf, hlst⟩
    · rw [hf, hlst]
      exact ⟨hl', hle⟩
    · rw [hf, hlst]
      refine ⟨hl'.cut (by rw [hlen']; omega) (by omega) hmid new next u, ?_⟩
      simp only [Leaf.upper, List.length_drop]
      omega

/-- One ascending insertion. -/
theorem Laddered.step (hm : 2 ≤ m.toNat) (hs : Shows s v) (htidy : v.Tidy) (hshape : Shape v)
    (hmax : v.maxSize = m) (hlad : Laddered m is v) {op : BTreeKey × RID}
    (hasc : ((is ++ [op]).map (·.1)).Pairwise BTreeKey.Lt) (hop : NoOverflow s op) :
    ∃ r s' v', BTree.insertOp op s = (.ok r, s') ∧ Shows s' v' ∧ v'.Tidy ∧ Shape v' ∧
      v'.maxSize = m ∧ Laddered m (is ++ [op]) v' := by
  obtain ⟨key, val⟩ := op
  obtain ⟨hpos, hfit, hover⟩ := hop
  have hK := totalOn_of_pairwise hasc
  have habove : ∀ k ∈ is.map (·.1), BTreeKey.Lt k key := by
    rw [List.map_append, List.pairwise_append] at hasc
    exact fun k hk => hasc.2.2 k hk key (by simp)
  rcases hlad with ⟨hroot, rfl⟩ | ⟨h, t, hh, ht, hsorted, hrec, hl, hlen⟩
  · obtain ⟨s₁, hr₁, hs₁, htidy₁, hshape₁, hroot₁, hnode₁⟩ := hshape.createRoot hs htidy hroot
    have hrun := insert_createRoot hr₁ hs₁ hroot₁ key val
    rw [BTree.insertOp, hrun] at hfit
    obtain ⟨r, s', v', hr, hrest⟩ := (held_newLeaf hroot₁ hnode₁).insert_above hm hs₁ htidy₁ hshape₁ hmax hK
      habove (by omega) (sorted_newLeaf _ _) (records_leaf _) ⟨by simp [flat], rfl⟩ (Nat.zero_le _) hpos hfit
      fun _ => trivial
    exact ⟨r, s', v', hrun.trans hr, hrest⟩
  · have hpath := ht.stored.path hsorted.keyed key
    rw [← ht.root] at hpath
    have hclen : (crumbs key t).length < 2 ^ 32 := by rw [crumbs_length]; omega
    rw [hs.rootPid] at hover
    exact ht.insert_above hm hs htidy hshape hmax hK habove hh hsorted hrec hl hlen hpos hfit
      (noInnerOverflow_of hs hpath hclen (hover hpath.start.1))

end Step

/-- **The shape of an index of ascending insertions.** -/
theorem insert_run_ascending (m : UInt8) (hm : 2 ≤ m.toNat) (junk : BTree Disk)
    (ops : List (BTreeKey × RID)) (hasc : (ops.map (·.1)).IsChain BTreeKey.Lt)
    (hops : Prog.Meets BTree.insertOp NoOverflow ops (BTree.opened m junk)) :
    ∃ rs t items, Prog.runAll BTree.insertOp ops (BTree.opened m junk) = (.ok rs, t) ∧
      readIndex t.bpm t.rootPid = some items ∧ AscendingShape ((m.toNat + 1) / 2) ops items := by
  have : Trans BTreeKey.Lt BTreeKey.Lt BTreeKey.Lt := ⟨BTreeKey.lt_trans⟩
  have hpair := List.isChain_iff_pairwise.mp hasc
  obtain ⟨rs, t, hrun, v, hs, -, -, -, hlad⟩ := Prog.runAll_inv
    (fun is _ t => ∃ v, Shows t v ∧ v.Tidy ∧ Shape v ∧ v.maxSize = m ∧ Laddered m is v)
    (fun is _ t op hpre ⟨v, hs, htidy, hshape, hmax, hlad⟩ hop => by
      obtain ⟨r, t', v', hr, hrest⟩ := hlad.step hm hs htidy hshape hmax
        (hpair.sublist (hpre.map _).sublist) hop
      exact ⟨r, t', hr, v', hrest⟩)
    ⟨View.fresh m, Shows.opened_fresh m junk, View.fresh_tidy m, .empty rfl rfl, rfl, .inl ⟨rfl, rfl⟩⟩ hops
  rcases hlad with ⟨hroot, rfl⟩ | ⟨h, tree, hh, ht, -, hrec, hl, -⟩
  · exact ⟨rs, t, [], hrun, by rw [readIndex, hs.rootPid, if_pos hroot], rfl, ⟨0, by simp⟩,
      by simp [leafNodes], by simp⟩
  · exact ⟨rs, t, tree.items 0, hrun, ht.readIndex hs (by omega), hl.shape hrec⟩

set_option maxRecDepth 4096 in
theorem insert_run_ascending_six :
    ∃ rs t items, Prog.runAll BTree.insertOp (byteOps [67, 68, 69, 70, 71, 72]) (BTree.opened 2 .zeroMemory) =
      (.ok rs, t) ∧ readIndex t.bpm t.rootPid = some items ∧
        AscendingShape 1 (byteOps [67, 68, 69, 70, 71, 72]) items :=
  insert_run_ascending 2 (by decide) .zeroMemory _ (by decide) (by decide +kernel)

end SomeDB
