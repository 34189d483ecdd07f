import SomeDB.Index.Tree

/-!
# Ordered trees

`Separated t`: each separator bounds the records on its two sides. A search is `Outer` if at each
branch the key is below the first separator or not below the last one, which are the only keys that
`findLeaf` sends to the right child. Then everything before the leaf it finds is below the key and
everything after it is above (`Outer.before_lt`, `Outer.lt_after`), and the tree stays separated when
the key is put into that leaf.

Keys that are prefixes of one another compare equal, so the keys of the tree and the key searched for
are taken from a set `K` in which every two different keys are ordered (`TotalOn`).
-/

namespace SomeDB

open Lib

/-- Every two different keys in `K` are ordered. -/
def TotalOn (K : BTreeKey → Prop) : Prop :=
  ∀ a b, K a → K b → a = b ∨ BTreeKey.Lt a b ∨ BTreeKey.Lt b a

theorem TotalOn.eq_or_lt {K : BTreeKey → Prop} (hK : TotalOn K) {a b : BTreeKey} (ha : K a) (hb : K b)
    (h : ¬ BTreeKey.Lt b a) : a = b ∨ BTreeKey.Lt a b := by
  rcases hK a b ha hb with heq | hlt | hgt
  · exact .inl heq
  · exact .inr hlt
  · exact absurd hgt h

/-- `a < b` and `b ≤ c`. -/
theorem TotalOn.lt_of_lt_of_not_lt {K : BTreeKey → Prop} (hK : TotalOn K) {a b c : BTreeKey} (hb : K b)
    (hc : K c) (hab : BTreeKey.Lt a b) (hbc : ¬ BTreeKey.Lt c b) : BTreeKey.Lt a c := by
  rcases hK.eq_or_lt hb hc hbc with rfl | hlt
  · exact hab
  · exact BTreeKey.lt_trans hab hlt

/-! ## Separators -/

section Bounded

variable {α : Type} {f : α → List (BTreeKey × RID)}

/-- The records of a child are below the separator to its right, and none to the right of a separator
is below it. -/
def Bounded (f : α → List (BTreeKey × RID)) : List (α × BTreeKey) → List (BTreeKey × RID) → Prop
  | [], _ => True
  | (c, s) :: ks, last => (∀ r ∈ f c, BTreeKey.Lt r.1 s) ∧
    (∀ r ∈ ks.flatMap (fun cs => f cs.1) ++ last, ¬ BTreeKey.Lt r.1 s) ∧ Bounded f ks last

/-- A separator in the middle. -/
theorem bounded_append {ks₁ ks₂ : List (α × BTreeKey)} {last : List (BTreeKey × RID)} :
    Bounded f (ks₁ ++ ks₂) last ↔
      Bounded f ks₁ (ks₂.flatMap (fun cs => f cs.1) ++ last) ∧ Bounded f ks₂ last := by
  induction ks₁ with
  | nil => simp [Bounded]
  | cons cs ks ih =>
    simp only [List.cons_append, Bounded, ih, List.flatMap_append, List.append_assoc, and_assoc]

theorem Bounded.mono {ks : List (α × BTreeKey)} {last last' : List (BTreeKey × RID)}
    (h : Bounded f ks last) (hl : ∀ r ∈ last', r ∈ last ∨ ∀ s ∈ ks.map (·.2), ¬ BTreeKey.Lt r.1 s) :
    Bounded f ks last' := by
  induction ks with
  | nil => trivial
  | cons cs ks ih =>
    obtain ⟨h₁, h₂, h₃⟩ := h
    refine ⟨h₁, fun r hr => ?_, ih h₃ fun r hr => ?_⟩
    · rcases List.mem_append.mp hr with hr | hr
      · exact h₂ r (List.mem_append_left _ hr)
      · rcases hl r hr with hr | hr
        · exact h₂ r (List.mem_append_right _ hr)
        · exact hr cs.2 (by simp)
    · exact (hl r hr).imp id fun h s hs => h s (by simp_all)

/-- With ascending separators, everything to the left of a separator is below it. -/
theorem Bounded.lt_of_mem {ks : List (α × BTreeKey)} {last : List (BTreeKey × RID)}
    (h : Bounded f ks last) (hs : (ks.map (·.2)).Pairwise BTreeKey.Lt) {s : BTreeKey}
    (hlast : (ks.map (·.2)).getLast? = some s) : ∀ r ∈ ks.flatMap fun cs => f cs.1, BTreeKey.Lt r.1 s := by
  induction ks with
  | nil => simp
  | cons cs ks ih =>
    obtain ⟨h₁, h₂, h₃⟩ := h
    intro r hr
    rw [List.map_cons, List.pairwise_cons] at hs
    rcases ks with _ | ⟨cs', ks⟩
    · simp only [List.map_cons, List.map_nil, List.getLast?_singleton, Option.some.injEq] at hlast
      subst hlast
      simp only [List.flatMap_cons, List.flatMap_nil, List.append_nil] at hr
      exact h₁ r hr
    · rw [List.map_cons, List.map_cons, List.getLast?_cons_cons] at hlast
      rw [List.flatMap_cons] at hr
      rcases List.mem_append.mp hr with hr | hr
      · exact BTreeKey.lt_trans (h₁ r hr) (hs.1 s (List.mem_of_getLast? hlast))
      · exact ih h₃ hs.2 hlast r hr

/-- No record of the last child is below a separator. -/
theorem Bounded.not_lt_of_mem {ks : List (α × BTreeKey)} {last : List (BTreeKey × RID)}
    (h : Bounded f ks last) {s : BTreeKey} (hs : s ∈ ks.map (·.2)) :
    ∀ r ∈ last, ¬ BTreeKey.Lt r.1 s := by
  induction ks with
  | nil => simp at hs
  | cons cs ks ih =>
    obtain ⟨-, h₂, h₃⟩ := h
    intro r hr
    rcases List.mem_cons.mp hs with rfl | hs
    · exact h₂ r (List.mem_append_right _ hr)
    · exact ih h₃ hs r hr

end Bounded

namespace Tree

/-- Each separator bounds the records on its two sides. -/
def Separated : {h : Nat} → Tree h → Prop
  | 0, _ => True
  | _ + 1, b => Bounded records (Branch.kids b) (records (Branch.last b)) ∧
    ∀ c ∈ Branch.children b, Separated c

/-- The separators of a tree. -/
def seps : {h : Nat} → Tree h → List BTreeKey
  | 0, _ => []
  | _ + 1, b => Branch.keys b ++ (Branch.children b).flatMap seps

/-- The search for `key` is one that `findLeaf` does right. -/
def Outer (key : BTreeKey) : {h : Nat} → Tree h → Prop
  | 0, _ => True
  | _ + 1, b =>
    (Branch.goesFirst key b = true ∨ ∀ s, (Branch.keys b).getLast? = some s → ¬ BTreeKey.Lt key s) ∧
      Outer key (Branch.child key b)

/-- The records before the leaf that the search ends at. -/
def before (key : BTreeKey) : {h : Nat} → Tree h → List (BTreeKey × RID)
  | 0, _ => []
  | _ + 1, b => (Branch.left key b).flatMap records ++ before key (Branch.child key b)

/-- The records after it. -/
def after (key : BTreeKey) : {h : Nat} → Tree h → List (BTreeKey × RID)
  | 0, _ => []
  | _ + 1, b => after key (Branch.child key b) ++ (Branch.right key b).flatMap records

variable {key : BTreeKey}

theorem records_branch {h : Nat} (b : Branch (Tree h)) :
    records (h := h + 1) b = b.children.flatMap records := by
  simp only [records, leaves, List.flatMap_assoc]
  rfl

theorem records_items {h : Nat} (t : Tree h) (depth : Nat) :
    (t.items depth).flatMap Item.records = t.records := by
  induction h generalizing depth with
  | zero =>
    simp only [items, records, leaves, List.flatMap_cons, List.flatMap_nil, List.append_nil,
      Item.records, BTreePage.records, Leaf.node]
    exact (List.zip_of_prod rfl rfl).symm
  | succ h ih =>
    have hrec : records (h := h + 1) t = _ := records_branch t
    rw [hrec]
    simp only [items, Branch.children, List.flatMap_append, List.flatMap_assoc, List.flatMap_cons,
      List.flatMap_nil, List.append_nil, Item.records, ih, List.flatMap_map]

theorem records_setLeaf {h : Nat} (t : Tree h) (l : Leaf) :
    (setLeaf key t l).records = before key t ++ (l.records ++ after key t) := by
  induction h with
  | zero =>
    show List.flatMap Leaf.records [l] = _
    simp [before, after]
  | succ h ih =>
    have : records (h := h + 1) (setLeaf key t l) = _ := records_branch _
    rw [this]
    show (Branch.setChild key t _).children.flatMap records = _
    rw [Branch.children_setChild, List.flatMap_append, List.flatMap_cons, ih]
    simp [before, after]

theorem setLeaf_route (key : BTreeKey) {h : Nat} (t : Tree h) : setLeaf key t (route key t) = t := by
  induction h with
  | zero => rfl
  | succ h ih =>
    show Branch.setChild key t (setLeaf key (Branch.child key t) (route key (Branch.child key t))) = t
    rw [ih, Branch.setChild_child]

theorem records_eq (key : BTreeKey) {h : Nat} (t : Tree h) :
    t.records = before key t ++ ((route key t).records ++ after key t) := by
  rw [← records_setLeaf, setLeaf_route]

theorem records_child_subset {h : Nat} {b : Branch (Tree h)} {c : Tree h} (hc : c ∈ b.children) :
    ∀ r ∈ c.records, r ∈ records (h := h + 1) b := by
  intro r hr
  rw [records_branch]
  exact List.mem_flatMap.mpr ⟨c, hc, hr⟩

theorem seps_child_subset {h : Nat} {b : Branch (Tree h)} {c : Tree h} (hc : c ∈ b.children) :
    ∀ s ∈ c.seps, s ∈ seps (h := h + 1) b :=
  fun _ hs => List.mem_append_right _ (List.mem_flatMap.mpr ⟨c, hc, hs⟩)

theorem eq_or_lt_getLast {ks : List BTreeKey} (h : ks.Pairwise BTreeKey.Lt) {s z : BTreeKey}
    (hz : ks.getLast? = some z) (hs : s ∈ ks) : s = z ∨ BTreeKey.Lt s z := by
  obtain ⟨init, rfl⟩ := List.getLast?_eq_some_iff.mp hz
  rcases List.mem_append.mp hs with hs | hs
  · exact .inr ((List.pairwise_append.mp h).2.2 s hs z (by simp))
  · exact .inl (List.mem_singleton.mp hs)

/-! ## What lies before and after the leaf -/

section Route

variable {K : BTreeKey → Prop}

theorem Outer.before_lt (hK : TotalOn K) (hkey : K key) {h : Nat} {t : Tree h} (ho : Outer key t)
    (hk : Keyed t) (hsep : Separated t) (hs : ∀ s ∈ t.seps, K s) :
    ∀ r ∈ before key t, BTreeKey.Lt r.1 key := by
  induction h with
  | zero => simp [before]
  | succ h ih =>
    intro r hr
    rcases List.mem_append.mp hr with hr | hr
    · -- a child to the left: its records are below the last separator, and the key is not
      unfold Branch.left at hr
      split at hr
      · simp at hr
      · next hfirst =>
        obtain ⟨s, hlast⟩ : ∃ s, (Branch.keys t).getLast? = some s :=
          ⟨_, List.getLast?_eq_getLast_of_ne_nil (by simpa [Branch.keys] using hk.1)⟩
        have hlt := hsep.1.lt_of_mem hk.2.1 hlast r (by simpa [List.flatMap_map] using hr)
        exact hK.lt_of_lt_of_not_lt (hs s (List.mem_append_left _ (List.mem_of_getLast? hlast))) hkey hlt
          (ho.1.resolve_left hfirst s hlast)
    · have hc := Branch.child_mem key t
      exact ih ho.2 (hk.2.2 _ hc) (hsep.2 _ hc) (fun s h => hs s (seps_child_subset hc s h)) r hr

theorem Outer.lt_after (hK : TotalOn K) {h : Nat} {t : Tree h} (ho : Outer key t) (hk : Keyed t)
    (hsep : Separated t) (hs : ∀ s ∈ t.seps, K s) (hr : ∀ r ∈ t.records, K r.1) :
    ∀ r ∈ after key t, BTreeKey.Lt key r.1 := by
  induction h with
  | zero => simp [after]
  | succ h ih =>
    have hc := Branch.child_mem key t
    intro r hmem
    rcases List.mem_append.mp hmem with hmem | hmem
    · exact ih ho.2 (hk.2.2 _ hc) (hsep.2 _ hc) (fun s h => hs s (seps_child_subset hc s h))
        (fun r h => hr r (records_child_subset hc r h)) r hmem
    · -- a child to the right: the key is below the first separator, and its records are not
      have hrK : K r.1 := by
        refine hr r ?_
        rw [records_eq key]
        exact List.mem_append_right _ (List.mem_append_right _ (List.mem_append_right _ hmem))
      unfold Branch.right at hmem
      split at hmem
      · next hfirst =>
        rcases t with ⟨pid, flags, next, _ | ⟨⟨c, s⟩, ks⟩, last⟩
        · simp [Branch.goesFirst] at hfirst
        · have hlt : BTreeKey.Lt key s := by simpa [Branch.goesFirst] using hfirst
          have hnot := hsep.1.2.1 r (by simpa [List.flatMap_map] using hmem)
          exact hK.lt_of_lt_of_not_lt (hs s (by simp [seps, Branch.keys])) hrK hlt hnot
      · simp at hmem

/-- A branch stays bounded when the child that the search goes to gets the key. -/
theorem bounded_setChild {α : Type} {f : α → List (BTreeKey × RID)} {b : Branch α} {c : α}
    (hb : Bounded f b.kids (f b.last)) (hk : b.keys.Pairwise BTreeKey.Lt)
    (ho : b.goesFirst key = true ∨ ∀ s, b.keys.getLast? = some s → ¬ BTreeKey.Lt key s)
    (hc : ∀ r ∈ f c, r ∈ f (b.child key) ∨ r.1 = key) :
    Bounded f (b.setChild key c).kids (f (b.setChild key c).last) := by
  rcases b with ⟨pid, flags, next, _ | ⟨⟨d, s⟩, ks⟩, last⟩
  · trivial
  · by_cases hlt : BTreeKey.Lt key s
    · simp only [Branch.setChild, Branch.child, if_pos hlt] at hc ⊢
      obtain ⟨h₁, h₂, h₃⟩ := hb
      refine ⟨fun r hr => ?_, h₂, h₃⟩
      rcases hc r hr with hr | hr
      · exact h₁ r hr
      · exact hr ▸ hlt
    · simp only [Branch.setChild, Branch.child, if_neg hlt] at hc ⊢
      have ho' := ho.resolve_left (by simpa [Branch.goesFirst] using hlt)
      refine hb.mono fun r hr => (hc r hr).imp id ?_
      intro heq s' hs' hlt'
      rw [heq] at hlt'
      -- the last separator is the largest, and the key is not below it
      obtain ⟨z, hlast⟩ : ∃ z, (((d, s) :: ks).map (·.2)).getLast? = some z :=
        ⟨_, List.getLast?_eq_getLast_of_ne_nil (by simp)⟩
      refine ho' z hlast ?_
      rcases eq_or_lt_getLast hk hlast hs' with rfl | hle
      · exact hlt'
      · exact BTreeKey.lt_trans hlt' hle

theorem Separated.setLeaf {h : Nat} {t : Tree h} (hsep : Separated t) (hk : Keyed t)
    (ho : Outer key t) {l : Leaf} (hl : ∀ r ∈ l.records, r ∈ (route key t).records ∨ r.1 = key) :
    Separated (setLeaf key t l) := by
  induction h with
  | zero => trivial
  | succ h ih =>
    have hc := Branch.child_mem key t
    have hchild := ih (hsep.2 _ hc) (hk.2.2 _ hc) ho.2 hl
    refine ⟨bounded_setChild hsep.1 hk.2.1 ho.1 fun r hr => ?_, ?_⟩
    · rw [records_setLeaf] at hr
      rw [records_eq key (Branch.child key t)]
      simp only [List.mem_append] at hr ⊢
      rcases hr with hr | hr | hr
      · exact .inl (.inl hr)
      · exact (hl r hr).imp (fun h => .inr (.inl h)) id
      · exact .inl (.inr (.inr hr))
    · exact Branch.forall_setChild hsep.2 hchild

end Route

end Tree

end SomeDB
