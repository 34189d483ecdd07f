import SomeDB.Index.InsertStep

/-!
# Node capacity and the metadata page

Over runs of insertions that take no inner child and overflow no node but the root, whatever the order
of the keys, the index has one of four shapes (`Shape`): empty, a leaf, a node above leaves, or a root
with one key above two such nodes. A page may be the child of a node more than once: a leaf that is not
the rightmost one and is split leaves its upper half unreachable.

The shape gives the capacity of every node that can be reached, and it bounds the number of pages, so
that the counter does not wrap.
-/

namespace SomeDB

open Lib

/-! ## Nodes above leaves -/

/-- An internal node whose children are all `ok`. -/
def Level1 (ok : PageId → Prop) (n : BTreePage) : Prop :=
  ∃ cs, n.values = .children cs ∧ (∀ c ∈ cs, ok c) ∧ ok n.rightmostPtr

namespace Level1

variable {ok ok' : PageId → Prop} {n : BTreePage}

theorem isLeaf (h : Level1 ok n) : n.isLeaf = false := by
  obtain ⟨cs, hv, -⟩ := h
  simp [BTreePage.isLeaf, hv]

theorem mono (h : Level1 ok n) (hok : ∀ p, ok p → ok' p) : Level1 ok' n := by
  obtain ⟨cs, hv, hcs, hr⟩ := h
  exact ⟨cs, hv, fun c hc => hok c (hcs c hc), hok _ hr⟩

theorem addChild (h : Level1 ok n) {old new : PageId} (hold : ok old) (hnew : ok new) (i : Nat)
    (mid : BTreeKey) : Level1 ok (n.addChild i mid old new) := by
  obtain ⟨cs, hv, hcs, hr⟩ := h
  refine ⟨putAt cs i old, BTreePage.addChild_values hv .., fun c hc => ?_, ?_⟩
  · rcases mem_putAt.mp hc with rfl | hc
    · exact hold
    · exact hcs c hc
  · simp only [BTreePage.addChild, hv]
    split
    · exact hnew
    · exact hr

theorem lowerHalf (h : Level1 ok n) (hc : n.valCount = n.keys.length) (hpos : 1 ≤ n.keys.length)
    (next : PageId) : Level1 ok { n.lowerHalf with next := next } := by
  obtain ⟨cs, hv, hcs, -⟩ := h
  have hl : cs.length = n.keys.length := (BTreePage.valCount_children hv).symm.trans hc
  refine ⟨cs.take (n.keys.length / 2), by simp [BTreePage.lowerHalf, hv],
    fun c hc => hcs c (List.mem_of_mem_take hc), ?_⟩
  have hmid : n.keys.length / 2 < cs.length := by omega
  simp only [BTreePage.lowerHalf, hv, List.getD_eq_getElem?_getD, List.getElem?_eq_getElem hmid,
    Option.getD_some]
  exact hcs _ (List.getElem_mem hmid)

theorem upperHalf (h : Level1 ok n) (e : BTreePage) : Level1 ok (n.upperHalf e) := by
  obtain ⟨cs, hv, hcs, hr⟩ := h
  refine ⟨cs.drop (n.keys.length / 2 + 1), by simp [BTreePage.upperHalf, hv],
    fun c hc => hcs c (List.mem_of_mem_drop hc), ?_⟩
  simpa [BTreePage.upperHalf, hv] using hr

end Level1

/-! ## The shape -/

/-- Page `p` holds a leaf with room for its keys. -/
def LeafPage (v : View) (p : PageId) : Prop :=
  p ≠ 0 ∧ ∃ n, v.node p = some n ∧ n.isLeaf = true ∧ n.keys.length ≤ v.maxSize.toNat

/-- Page `p` holds a node with `j` keys above leaves. -/
def BranchPage (v : View) (p : PageId) (j : Nat) : Prop :=
  p ≠ 0 ∧ 1 ≤ j ∧ j ≤ v.maxSize.toNat ∧
    ∃ n, v.node p = some n ∧ n.keys.length = j ∧ Level1 (LeafPage v) n

/-- The shapes of an index, with the number of pages. -/
inductive Shape (v : View) : Prop
  | empty (hroot : v.rootPid = 0) (hcount : v.diskCount.toNat = 0)
  | leaf (hroot : LeafPage v v.rootPid) (hcount : v.diskCount.toNat = 1)
  | one {j : Nat} (hroot : BranchPage v v.rootPid j) (hcount : v.diskCount.toNat = j + 2)
  | two {n : BTreePage} {k : BTreeKey} {p q : PageId} {i j : Nat} (hroot : v.rootPid ≠ 0)
    (hn : v.node v.rootPid = some n) (hk : n.keys = [k]) (hv : n.values = .children [p])
    (hr : n.rightmostPtr = q) (hpq : p ≠ q) (hp : BranchPage v p i) (hq : BranchPage v q j)
    (hcount : v.diskCount.toNat = 5 + i + j)

/-- The pages that can be reached from the root. -/
inductive Reachable (d : Disk) (root : PageId) : PageId → Prop
  | root (h : root ≠ 0) : Reachable d root root
  | child {p c : PageId} {n : BTreePage} {cs : List PageId} (h : Reachable d root p)
    (hn : d.nodeAt p = some n) (hv : n.values = .children cs) (hc : c ∈ cs) : Reachable d root c
  | rightmost {p : PageId} {n : BTreePage} {cs : List PageId} (h : Reachable d root p)
    (hn : d.nodeAt p = some n) (hv : n.values = .children cs) : Reachable d root n.rightmostPtr

/-! ## The pages that can be reached -/

section Reach

variable {t : BTree Disk} {v : View}

theorem LeafPage.ne_branch {p q : PageId} {j : Nat} (hp : LeafPage v p) (hq : BranchPage v q j) :
    p ≠ q := by
  rintro rfl
  obtain ⟨-, n, hn, hl, -⟩ := hp
  obtain ⟨-, -, -, n', hn', -, hl'⟩ := hq
  rw [hn] at hn'
  cases hn'
  rw [hl'.isLeaf] at hl
  cases hl

/-- Every page that can be reached is the root or a leaf or a node above leaves. -/
theorem Shape.reachable (hs : Shows t v) (h : Shape v) {p : PageId}
    (hr : Reachable t.bpm t.rootPid p) :
    p ≠ 0 ∧ (p = v.rootPid ∨ LeafPage v p ∨ ∃ j, BranchPage v p j) := by
  rw [hs.rootPid] at hr
  have hbelow : ∀ {p : PageId} {n : BTreePage} {cs : List PageId}, p ≠ 0 →
      (p = v.rootPid ∨ LeafPage v p ∨ ∃ j, BranchPage v p j) → v.node p = some n →
      n.values = .children cs → Level1 (fun c => LeafPage v c ∨ ∃ j, BranchPage v c j) n := by
    intro p n cs hp hkind hn hv
    have hleaf : ¬ LeafPage v p := by
      rintro ⟨-, n', hn', hl, -⟩
      rw [hn] at hn'
      cases hn'
      simp [BTreePage.isLeaf, hv] at hl
    have hbranch : ∀ {j : Nat}, BranchPage v p j →
        Level1 (fun c => LeafPage v c ∨ ∃ j, BranchPage v c j) n := by
      rintro j ⟨-, -, -, n', hn', -, hl⟩
      rw [hn] at hn'
      cases hn'
      exact hl.mono fun _ => .inl
    rcases hkind with rfl | hl | ⟨j, hb⟩
    · cases h with
      | empty h0 => exact absurd h0 hp
      | leaf hl => exact absurd hl hleaf
      | one hb => exact hbranch hb
      | two _ hn' _ hv' hr' _ hp' hq' =>
        rw [hn] at hn'
        cases hn'
        exact ⟨_, hv', by simpa using .inr ⟨_, hp'⟩, .inr ⟨_, hr' ▸ hq'⟩⟩
    · exact absurd hl hleaf
    · exact hbranch hb
  have hinner : ∀ {c : PageId}, (LeafPage v c ∨ ∃ j, BranchPage v c j) →
      c ≠ 0 ∧ (c = v.rootPid ∨ LeafPage v c ∨ ∃ j, BranchPage v c j) := by
    rintro c (hl | ⟨j, hb⟩)
    · exact ⟨hl.1, .inr (.inl hl)⟩
    · exact ⟨hb.1, .inr (.inr ⟨j, hb⟩)⟩
  induction hr with
  | root h0 => exact ⟨h0, .inl rfl⟩
  | child _ hn hv hc ih =>
    rw [hs.node _ ih.1] at hn
    obtain ⟨cs', hv', hcs, -⟩ := hbelow ih.1 ih.2 hn hv
    rw [hv] at hv'
    cases hv'
    exact hinner (hcs _ hc)
  | rightmost _ hn hv ih =>
    rw [hs.node _ ih.1] at hn
    obtain ⟨-, -, -, hr⟩ := hbelow ih.1 ih.2 hn hv
    exact hinner hr

/-- Every page that can be reached holds a node with room for its keys. -/
theorem Shape.capacity (hs : Shows t v) (h : Shape v) (hm : 1 ≤ v.maxSize.toNat) {p : PageId}
    (hr : Reachable t.bpm t.rootPid p) :
    ∃ n, t.bpm.nodeAt p = some n ∧ n.keys.length ≤ v.maxSize.toNat := by
  obtain ⟨h0, hkind⟩ := h.reachable hs hr
  have hleaf : LeafPage v p → ∃ n, t.bpm.nodeAt p = some n ∧ n.keys.length ≤ v.maxSize.toNat := by
    rintro ⟨-, n, hn, -, hle⟩
    exact ⟨n, (hs.node p h0).trans hn, hle⟩
  have hbranch : ∀ {j : Nat}, BranchPage v p j →
      ∃ n, t.bpm.nodeAt p = some n ∧ n.keys.length ≤ v.maxSize.toNat := by
    rintro j ⟨-, -, hle, n, hn, rfl, -⟩
    exact ⟨n, (hs.node p h0).trans hn, hle⟩
  rcases hkind with rfl | hl | ⟨j, hb⟩
  · cases h with
    | empty hroot => exact absurd hroot h0
    | leaf hl => exact hleaf hl
    | one hb => exact hbranch hb
    | two _ hn hk => exact ⟨_, (hs.node _ h0).trans hn, by rw [hk]; exact hm⟩
  · exact hleaf hl
  · exact hbranch hb

end Reach

/-! ## What the steps do to leaves and to nodes above leaves -/

section Pages

variable {v : View} {q : PageId}

theorem LeafPage.live (hs : v.Sound) (h : LeafPage v q) : v.live q = true := by
  obtain ⟨h0, n, hn, -⟩ := h
  exact hs q n h0 hn

theorem LeafPage.ne_of_node {c : PageId} {n : BTreePage} (h : LeafPage v q) (hc : v.node c = some n)
    (hl : n.isLeaf = false) : q ≠ c := by
  rintro rfl
  obtain ⟨-, n', hn', hl', -⟩ := h
  rw [hc] at hn'
  cases hn'
  rw [hl] at hl'
  cases hl'

theorem LeafPage.congr {v' : View} (h : LeafPage v q) (hn : v'.node q = v.node q)
    (hm : v'.maxSize = v.maxSize) : LeafPage v' q := by
  rwa [LeafPage, hn, hm]

theorem leafPage_of_node {n : BTreePage} (h0 : q ≠ 0) (hn : v.node q = some n) (hl : n.isLeaf = true)
    (hle : n.keys.length ≤ v.maxSize.toNat) : LeafPage v q := ⟨h0, n, hn, hl, hle⟩

/-- A node above leaves stays one as long as its page is not written and leaves stay leaves. -/
theorem BranchPage.congr {v' : View} {j : Nat} (h : BranchPage v q j) (hn : v'.node q = v.node q)
    (hm : v'.maxSize = v.maxSize) (hleaf : ∀ p, LeafPage v p → LeafPage v' p) : BranchPage v' q j := by
  obtain ⟨h0, hpos, hle, n, hq, hj, hl⟩ := h
  exact ⟨h0, hpos, hm ▸ hle, n, hn.trans hq, hj, hl.mono hleaf⟩

/-- A leaf with one key too many, cut in two. -/
theorem half_le {m : Nat} (hm : 1 ≤ m) {n : BTreePage} (hl : n.isLeaf = true)
    (hn : n.keys.length = m + 1) (e : BTreePage) :
    n.lowerHalf.keys.length ≤ m ∧ (n.upperHalf e).keys.length ≤ m := by
  rw [BTreePage.lowerHalf_keys, BTreePage.upperHalf_keys, hl, List.length_take, if_pos rfl,
    List.length_drop]
  omega

theorem LeafPage.put (h : LeafPage v q) {p : PageId} {n : BTreePage} (hl : n.isLeaf = true)
    (hle : n.keys.length ≤ v.maxSize.toNat) : LeafPage (v.put p n) q := by
  by_cases hq : q = p
  · subst hq
    exact leafPage_of_node h.1 (View.put_node_same ..) hl hle
  · exact h.congr (View.put_node_ne v n hq) rfl

/-- The leaf at `p`, cut in two below the node at `c`. -/
theorem leafPage_splitLeaf (hs : v.Sound) (hpk : v.Packed) (hid : v.newId ≠ 0)
    (hm : 1 ≤ v.maxSize.toNat) {p c : PageId} {n old : BTreePage} (hp : LeafPage v p)
    (hl : n.isLeaf = true) (hn : n.keys.length = v.maxSize.toNat + 1) (hc : v.node c = some old)
    (hold : old.isLeaf = false) (parent : BTreePage) (u : Uninit) :
    (∀ q, LeafPage v q → LeafPage (v.splitLeaf p n c parent u) q) ∧
      LeafPage (v.splitLeaf p n c parent u) v.newId := by
  obtain ⟨hlow, hupp⟩ := half_le hm hl hn (BTreePage.new true u)
  have hpn : v.newId ≠ p := (hpk.ne_newId hid (hp.live hs)).symm
  constructor
  · intro q hq
    by_cases hqp : q = p
    · subst hqp
      exact leafPage_of_node hq.1 (View.splitLeaf_node_leaf ..)
        ((BTreePage.lowerHalf_isLeaf n).trans hl) hlow
    · exact hq.congr (View.splitLeaf_node_ne v n parent u hqp (hpk.ne_newId hid (hq.live hs))
        (hq.ne_of_node hc hold)) rfl
  · exact leafPage_of_node hid (View.splitLeaf_node_new v n parent u hpn)
      ((BTreePage.upperHalf_isLeaf n _).trans hl) hupp

/-- Pages other than the three that a split of the root writes keep what they hold. -/
theorem splitRoot_node_of_live (hpk : v.Packed) (hcount : v.diskCount.toNat + 2 < 65536)
    (hq : q ≠ v.rootPid) (hlive : v.live q = true) (n : BTreePage) (mid : BTreeKey) (u w : Uninit) :
    (v.splitRoot n mid u w).node q = v.node q :=
  View.splitRoot_node_ne v n mid u w hq (hpk.ne_newId (View.newId_ne_zero (by omega)) hlive)
    ((hpk.addPage (View.newId_ne_zero (by omega)) _).ne_newId (View.addPage_newId_ne_zero hcount _)
      (View.addPage_live hlive))

end Pages

/-! ## Every step keeps the shape -/

section Step

variable {v v' : View} {key : BTreeKey} {val : RID} {p c : PageId} {leaf : BTreePage}
  {crumbs : List Crumb}

theorem LeafPage.path (h : LeafPage v c) (hpath : Path v key c p leaf crumbs) :
    crumbs = [] ∧ p = c := by
  obtain ⟨-, n, hn, hl, -⟩ := h
  cases hpath with
  | leaf => exact ⟨rfl, rfl⟩
  | first _ hn' hv =>
    rw [hn] at hn'
    cases hn'
    simp [BTreePage.isLeaf, hv] at hl
  | last _ hn' hv =>
    rw [hn] at hn'
    cases hn'
    simp [BTreePage.isLeaf, hv] at hl

theorem BranchPage.path {j : Nat} (h : BranchPage v c j) (hpath : Path v key c p leaf crumbs) :
    LeafPage v p ∧ ∃ idx, crumbs = [(c, idx)] := by
  obtain ⟨-, -, -, n, hn, -, cs, hv, hcs, hr⟩ := h
  cases hpath with
  | leaf _ hn' hl =>
    rw [hn] at hn'
    cases hn'
    simp [BTreePage.isLeaf, hv] at hl
  | first _ hn' hv' _ _ hc rest =>
    rw [hn] at hn'
    cases hn'
    rw [hv] at hv'
    cases hv'
    have hleaf := hcs _ (List.mem_of_getElem? hc)
    obtain ⟨rfl, rfl⟩ := hleaf.path rest
    exact ⟨hleaf, 0, rfl⟩
  | last _ hn' _ _ _ _ rest =>
    rw [hn] at hn'
    cases hn'
    obtain ⟨rfl, hp⟩ := hr.path rest
    exact ⟨hp ▸ hr, -1, rfl⟩

/-- A step that changes only leaves keeps the shape. -/
theorem Shape.congr (h : Shape v) (hroot : v'.rootPid = v.rootPid) (hm : v'.maxSize = v.maxSize)
    (hcount : v'.diskCount = v.diskCount) (hleaf : ∀ q, LeafPage v q → LeafPage v' q)
    (hnode : ∀ q n, v.node q = some n → n.isLeaf = false → v'.node q = some n) : Shape v' := by
  have hbranch : ∀ {q : PageId} {j : Nat}, BranchPage v q j → BranchPage v' q j := by
    intro q j hb
    obtain ⟨-, -, -, n, hn, -, hl⟩ := id hb
    exact hb.congr ((hnode q n hn hl.isLeaf).trans hn.symm) hm hleaf
  cases h with
  | empty h0 hc => exact .empty (hroot.trans h0) (by rw [hcount, hc])
  | leaf hl hc => exact .leaf (hroot ▸ hleaf _ hl) (by rw [hcount, hc])
  | one hb hc => exact .one (hroot ▸ hbranch hb) (by rw [hcount, hc])
  | two h0 hn hk hv hr hpq hp hq hc =>
    exact .two (hroot ▸ h0) (hroot ▸ hnode _ _ hn (BTreePage.isLeaf_of_children hv)) hk hv hr hpq (hbranch hp)
      (hbranch hq)
      (by rw [hcount, hc])

/-- The parent of a leaf that is cut in two. -/
theorem level1_splitLeaf (hs : v.Sound) (hpk : v.Packed) (hid : v.newId ≠ 0)
    (hm : 1 ≤ v.maxSize.toNat) {n old : BTreePage} {u : Uninit} (hp : LeafPage v p)
    (hl : n.isLeaf = true) (hn : n.keys.length = v.maxSize.toNat + 1) (hc0 : c ≠ 0)
    (hc : v.node c = some old) (hold : Level1 (LeafPage v) old) {j : Nat} {mid : BTreeKey}
    (hj : PlaceOf mid old.keys j) :
    let v' := v.splitLeaf p n c (old.addChild j mid p v.newId) u
    v'.node c = some (old.addChild j mid p v.newId) ∧
      (old.addChild j mid p v.newId).keys.length = old.keys.length + 1 ∧
      Level1 (LeafPage v') (old.addChild j mid p v.newId) := by
  intro v'
  obtain ⟨hkeep, hnew⟩ := leafPage_splitLeaf hs hpk hid hm hp hl hn hc hold.isLeaf
    (old.addChild j mid p v.newId) u
  have hcp : c ≠ p := (hp.ne_of_node hc hold.isLeaf).symm
  have hcn : c ≠ v.newId := hpk.ne_newId hid (hs _ _ hc0 hc)
  refine ⟨View.splitLeaf_node_parent v n _ u hcp hcn, ?_, (hold.mono hkeep).addChild (hkeep p hp) hnew ..⟩
  obtain ⟨cs, hv, -⟩ := hold
  rw [BTreePage.addChild_keys hv, putAt_length _ _ hj.1]

/-- The root above two nodes is none of them. -/
theorem BranchPage.ne_of_child {n : BTreePage} {q q' : PageId} {i j : Nat} (h : BranchPage v q i)
    (hc : v.node c = some n) (hv : n.values = .children [q']) (hq' : BranchPage v q' j) : q ≠ c := by
  rintro rfl
  obtain ⟨-, -, -, n', hn', -, cs, hv', hcs, -⟩ := h
  rw [hc] at hn'
  cases hn'
  rw [hv] at hv'
  cases hv'
  exact (hcs q' (by simp)).ne_branch hq' rfl

/-- A path from the root above two nodes goes through one of them. -/
theorem two_path {r q q' : PageId} {n : BTreePage} {i j : Nat} (hr : v.node r = some n)
    (hv : n.values = .children [q]) (hq' : n.rightmostPtr = q') (hb : BranchPage v q i)
    (hb' : BranchPage v q' j) (hpath : Path v key r p leaf crumbs) :
    LeafPage v p ∧ ∃ b idx idx', crumbs = [(b, idx), (r, idx')] ∧ (b = q ∨ b = q') := by
  cases hpath with
  | leaf _ hn hl =>
    rw [hr] at hn
    cases hn
    simp [BTreePage.isLeaf, hv] at hl
  | first _ hn hv' _ _ hc rest =>
    rw [hr] at hn
    cases hn
    rw [hv] at hv'
    cases hv'
    simp only [List.getElem?_cons_zero, Option.some.injEq] at hc
    subst hc
    obtain ⟨hp, idx, rfl⟩ := hb.path rest
    exact ⟨hp, q, idx, 0, rfl, .inl rfl⟩
  | last _ hn _ _ _ _ rest =>
    rw [hr] at hn
    cases hn
    subst hq'
    obtain ⟨hp, idx, rfl⟩ := hb'.path rest
    exact ⟨hp, _, idx, -1, rfl, .inr rfl⟩

/-- A leaf below a node with room is split. -/
theorem Shape.splitLeaf (hs : v.Sound) (htidy : v.Tidy) (hm : 1 ≤ v.maxSize.toNat) (h : Shape v)
    {idx : Int} (hpath : Path v key v.rootPid p leaf ((c, idx) :: crumbs)) {n parent : BTreePage}
    {u : Uninit} {j : Nat} {mid : BTreeKey} (hl : n.isLeaf = true)
    (hn : n.keys.length = v.maxSize.toNat + 1) (hcount : v.diskCount.toNat + 1 < 65536)
    (hc : v.node c = some parent) (hj : PlaceOf mid parent.keys j)
    (hroom : parent.keys.length < v.maxSize.toNat) :
    Shape (v.splitLeaf p n c (parent.addChild j mid p v.newId) u) := by
  have hid : v.newId ≠ 0 := View.newId_ne_zero hcount
  -- the parent is a node above leaves with one more key, whichever it is
  have hparent : ∀ {i : Nat}, BranchPage v c i → LeafPage v p →
      BranchPage (v.splitLeaf p n c (parent.addChild j mid p v.newId) u) c (i + 1) ∧
      i < v.maxSize.toNat := by
    rintro i ⟨hc0, hpos, -, parent', hc', rfl, hlev⟩ hp
    rw [hc] at hc'
    cases hc'
    obtain ⟨h₁, h₂, h₃⟩ := level1_splitLeaf (u := u) hs htidy.packed hid hm hp hl hn hc0 hc hlev hj
    exact ⟨⟨hc0, by omega, hroom, _, h₁, h₂, h₃⟩, hroom⟩
  have hpl : parent.isLeaf = false := by
    obtain ⟨-, n', hn', hl', -⟩ := hpath.crumb_spec (c, idx) (List.mem_cons_self ..)
    rw [hc] at hn'
    cases hn'
    exact hl'
  -- the other nodes stay as they are
  have hother : LeafPage v p → ∀ {q : PageId} {i : Nat}, BranchPage v q i → q ≠ c →
      BranchPage (v.splitLeaf p n c (parent.addChild j mid p v.newId) u) q i := by
    intro hp q i hq hqc
    obtain ⟨hq0, -, -, n', hn', -⟩ := id hq
    refine hq.congr (View.splitLeaf_node_ne v n _ u (hp.ne_branch hq).symm
      (htidy.packed.ne_newId hid (hs _ _ hq0 hn')) hqc) (View.splitLeaf_maxSize ..) ?_
    exact (leafPage_splitLeaf hs htidy.packed hid hm hp hl hn hc hpl _ _).1
  cases h with
  | empty h0 => exact absurd h0 hpath.start.1
  | leaf hroot => exact absurd (hroot.path hpath).1 (by simp)
  | one hroot hcnt =>
    obtain ⟨hp, idx', hcrumbs⟩ := hroot.path hpath
    cases hcrumbs
    refine .one (hparent hroot hp).1 ?_
    rw [View.splitLeaf_diskCount hid, hcnt]
  | two h0 hroot hk hv hr hab ha hb hcnt =>
    obtain ⟨hp, b, idx, idx', hcrumbs, hcases⟩ := two_path hroot hv hr ha hb hpath
    cases hcrumbs
    have hbr : c ≠ v.rootPid := by
      rcases hcases with rfl | rfl
      · exact ha.ne_of_child hroot hv ha
      · exact hb.ne_of_child hroot hv ha
    have hroot' := (View.splitLeaf_node_ne v n (parent.addChild j mid p v.newId) u
      (hp.ne_of_node hroot (BTreePage.isLeaf_of_children hv)).symm
      (htidy.packed.ne_newId hid (hs _ _ h0 hroot)) hbr.symm).trans hroot
    have hcnt' := View.splitLeaf_diskCount hid p c n (parent.addChild j mid p v.newId) u
    rcases hcases with rfl | rfl
    · exact .two h0 hroot' hk hv hr hab (hparent ha hp).1 (hother hp hb hab.symm)
        (by rw [hcnt', hcnt]; omega)
    · exact .two h0 hroot' hk hv hr hab (hother hp ha hab) (hparent hb hp).1
        (by rw [hcnt', hcnt]; omega)

/-- The leaf that is the root is split. -/
theorem Shape.splitRoot_leaf (hs : v.Sound) (htidy : v.Tidy) (hm : 1 ≤ v.maxSize.toNat)
    (hroot : LeafPage v v.rootPid) (hcnt : v.diskCount.toNat = 1) {n : BTreePage} (hl : n.isLeaf = true)
    (hn : n.keys.length = v.maxSize.toNat + 1) (mid : BTreeKey) (u w : Uninit) :
    Shape (v.splitRoot n mid u w) := by
  have hcount : v.diskCount.toNat + 2 < 65536 := by omega
  have hid : v.newId ≠ 0 := View.newId_ne_zero (by omega)
  have hid' : (v.addPage n.isLeaf).newId ≠ 0 := View.addPage_newId_ne_zero hcount _
  obtain ⟨hlow, hupp⟩ := half_le hm hl hn (BTreePage.new n.isLeaf u)
  have hlive := hroot.live hs
  have hold : LeafPage (v.splitRoot n mid u w) v.rootPid :=
    leafPage_of_node hroot.1 (View.splitRoot_node_old ..) ((BTreePage.lowerHalf_isLeaf n).trans hl) hlow
  have hnew : LeafPage (v.splitRoot n mid u w) v.newId :=
    leafPage_of_node hid (View.splitRoot_node_new v n mid u w (htidy.packed.ne_newId hid hlive).symm
      (View.newId_ne_newId hcount _)) ((BTreePage.upperHalf_isLeaf n _).trans hl) hupp
  have hne : (v.addPage n.isLeaf).newId ≠ v.rootPid :=
    ((htidy.packed.addPage hid _).ne_newId hid' (View.addPage_live hlive)).symm
  refine .one (j := 1) ⟨hid', Nat.le_refl 1, hm, _, View.splitRoot_node_root v n mid u w hne, rfl,
    [v.rootPid], rfl, by simpa using hold, hnew⟩ ?_
  rw [htidy.splitRoot_diskCount hcount, hcnt]

/-- The root, a node above leaves with one key too many, is split. -/
theorem Shape.splitRoot_branch (hs : v.Sound) (htidy : v.Tidy) (hm : 2 ≤ v.maxSize.toNat)
    {n : BTreePage} (h0 : v.rootPid ≠ 0) (hroot : v.node v.rootPid = some n)
    (hlev : Level1 (LeafPage v) n) (hval : n.valCount = n.keys.length)
    (hn : n.keys.length = v.maxSize.toNat + 1) (hcnt : v.diskCount.toNat = v.maxSize.toNat + 3) (mid : BTreeKey)
    (u w : Uninit) :
    Shape (v.splitRoot n mid u w) := by
  have hmax := v.maxSize.toNat_lt
  have hcount : v.diskCount.toNat + 2 < 65536 := by omega
  have hid : v.newId ≠ 0 := View.newId_ne_zero (by omega)
  have hid' : (v.addPage n.isLeaf).newId ≠ 0 := View.addPage_newId_ne_zero hcount _
  have hlive := hs _ _ h0 hroot
  have hkeep : ∀ q, LeafPage v q → LeafPage (v.splitRoot n mid u w) q := fun q hq =>
    hq.congr (splitRoot_node_of_live htidy.packed hcount (hq.ne_of_node hroot hlev.isLeaf) (hq.live hs)
      n mid u w) (View.splitRoot_maxSize ..)
  have hlow : BranchPage (v.splitRoot n mid u w) v.rootPid ((v.maxSize.toNat + 1) / 2) := by
    refine ⟨h0, by omega, ?_, _, View.splitRoot_node_old .., ?_,
      (hlev.mono hkeep).lowerHalf hval (by omega) _⟩
    · rw [View.splitRoot_maxSize]; omega
    · show n.lowerHalf.keys.length = _
      rw [BTreePage.lowerHalf_keys, List.length_take, hn]
      omega
  have hupp : BranchPage (v.splitRoot n mid u w) v.newId
      (v.maxSize.toNat - (v.maxSize.toNat + 1) / 2) := by
    refine ⟨hid, by omega, ?_, _, View.splitRoot_node_new v n mid u w
      (htidy.packed.ne_newId hid hlive).symm (View.newId_ne_newId hcount _), ?_,
      (hlev.mono hkeep).upperHalf _⟩
    · rw [View.splitRoot_maxSize]; omega
    · rw [BTreePage.upperHalf_keys, hlev.isLeaf, if_neg (by simp), List.length_drop, hn]
      omega
  have hne : (v.addPage n.isLeaf).newId ≠ v.rootPid :=
    ((htidy.packed.addPage hid _).ne_newId hid' (View.addPage_live hlive)).symm
  refine .two hid' (View.splitRoot_node_root v n mid u w hne) rfl rfl rfl
    (htidy.packed.ne_newId hid hlive) hlow hupp ?_
  rw [htidy.splitRoot_diskCount hcount, hcnt]
  omega

/-- The leaf that a path leads to. -/
theorem Shape.leafPage (h : Shape v) (hpath : Path v key v.rootPid p leaf crumbs) : LeafPage v p := by
  cases h with
  | empty h0 => exact absurd h0 hpath.start.1
  | leaf hl => exact (hl.path hpath).2 ▸ hl
  | one hb => exact (hb.path hpath).1
  | two _ hn _ hv hr _ hp hq => exact (two_path hn hv hr hp hq hpath).1

/-- Every insertion keeps the shape. -/
theorem Shape.step {t : BTree Disk} (hs : Shows t v) (htidy : v.Tidy) (hm : 2 ≤ v.maxSize.toNat)
    (h : Shape v) (hpath : Path v key v.rootPid p leaf crumbs) {r : PageId}
    (hstep : InsertStep v key val p leaf crumbs r v') : Shape v' := by
  obtain ⟨hp0, hpn, hleaf⟩ := hpath.leaf_spec
  have hp := h.leafPage hpath
  have hle : leaf.keys.length ≤ v.maxSize.toNat := by
    obtain ⟨-, n, hn, -, hle⟩ := hp
    rw [hpn] at hn
    cases hn
    exact hle
  have hleaf' : ∀ i, (leaf.addRecord i key val).isLeaf = true :=
    fun i => BTreePage.addRecord_isLeaf hleaf i key val
  have hlen : ∀ {i}, PlaceOf key leaf.keys i →
      (leaf.addRecord i key val).keys.length = leaf.keys.length + 1 :=
    fun hi => (BTreePage.addRecord_mid hleaf hi.1 key val).1
  cases hstep with
  | duplicate => exact h
  | @room _ i _ hi hroom =>
    refine h.congr rfl rfl rfl (fun q hq => hq.put (hleaf' i) (by rw [hlen hi]; exact hroom)) ?_
    intro q n hq hl
    rw [View.put_node_ne _ _ (hp.ne_of_node hq hl).symm]
    exact hq
  | @splitRoot i mid u w _ hi hfull _ hcount =>
    have hroot := hpath.eq_of_nil
    subst hroot
    cases h with
    | empty h0 => exact absurd h0 hp0
    | leaf hl hcnt =>
      exact Shape.splitRoot_leaf hs.sound htidy (by omega) hl hcnt (hleaf' i)
        (by rw [hlen hi]; omega) mid u w
    | one hb => exact absurd rfl (hp.ne_branch hb)
    | two _ hn _ hv => exact absurd rfl (hp.ne_of_node hn (BTreePage.isLeaf_of_children hv))
  | @splitLeaf crumbs c idx i j mid u parent _ hi hfull _ hcount hc hj hroom =>
    exact h.splitLeaf hs.sound htidy (by omega) hpath (hleaf' i) (by rw [hlen hi]; omega) hcount hc hj
      hroom
  | @splitBoth c idx i j mid mid' u u' w parent _ hi hfull _ hcount hc hroot hj hover _ =>
    subst hroot
    have hid : v.newId ≠ 0 := View.newId_ne_zero (by omega)
    cases h with
    | empty h0 => exact absurd h0 hpath.start.1
    | leaf hl => exact absurd (hl.path hpath).1 (by simp)
    | two _ hn _ hv hr _ hb hb' =>
      obtain ⟨-, b, idx', idx'', hcrumbs, -⟩ := two_path hn hv hr hb hb' hpath
      cases hcrumbs
    | one hb hcnt =>
      obtain ⟨h0, -, hjle, parent', hc', rfl, hlev⟩ := hb
      rw [hc] at hc'
      cases hc'
      obtain ⟨h₁, h₂, h₃⟩ := level1_splitLeaf (u := u) hs.sound htidy.packed hid (by omega) hp (hleaf' i)
        (by rw [hlen hi]; omega) h0 hc hlev hj
      obtain ⟨cs, hcs, -⟩ := id hlev
      refine Shape.splitRoot_branch
        (hs.sound.splitLeaf (hp.live hs.sound) (hs.live_of_node h0 hc) _ _ u)
        (htidy.splitLeaf (by omega) _ _ _ _ u) (by simpa using hm) (by simpa using h0) h₁ h₃ ?_ ?_ ?_
        mid' u' w
      · exact BTreePage.addChild_valCount hcs (hs.paired h0 hc).2.1 hj.1 ..
      · rw [h₂, View.splitLeaf_maxSize]; omega
      · rw [View.splitLeaf_diskCount hid, View.splitLeaf_maxSize, hcnt]; omega

end Step

/-! ## Runs of insertions -/

/-- Every node that can be reached has at most `m` keys, and page 0 is the metadata page with that
`m`. -/
def WithinCapacity (m : UInt8) (t : BTree Disk) : Prop :=
  (∀ p, Reachable t.bpm t.rootPid p → ∃ n, t.bpm.nodeAt p = some n ∧ n.keys.length ≤ m.toNat) ∧
    ∃ data, t.bpm 0 = some data ∧ decodeUint32 (data.slice 0 4) = BTREE_INDEX ∧ data.byte 6 = m

/-- The insertion takes no inner child and overflows no node but the root; its key is not empty and
its nodes fit. -/
def InsertSafe (t : BTree Disk) (op : BTreeKey × RID) : Prop :=
  1 ≤ op.1.length ∧ AllFit (BTree.insertOp op t).2 ∧ (t.rootPid ≠ 0 →
    innerTaken t.bpm op.1 (2 ^ 32) t.rootPid = false ∧ overflowsInner t op.1 = false)

instance (t : BTree Disk) (op : BTreeKey × RID) : Decidable (InsertSafe t op) :=
  inferInstanceAs (Decidable (_ ∧ _))

section Runs

variable {t : BTree Disk} {v : View}

theorem BranchPage.exists_path (hs : Shows t v) {key : BTreeKey} {c : PageId} {j fuel : Nat}
    (h : BranchPage v c j) (hin : innerTaken t.bpm key (fuel + 1) c = false) :
    ∃ p leaf crumbs, Path v key c p leaf crumbs ∧ crumbs.length ≤ 1 := by
  obtain ⟨h0, hpos, -, n, hn, rfl, cs, hv, hcs, hr⟩ := h
  have hl : cs.length = n.keys.length :=
    (BTreePage.valCount_children hv).symm.trans (hs.paired h0 hn).2.1
  obtain ⟨d, ds, rfl⟩ := List.exists_cons_of_length_pos (by omega : 0 < cs.length)
  refine exists_path_of_children hs h0 hn hv (List.ne_nil_of_length_pos (by omega)) hin ?_
  rintro q hq -
  obtain ⟨hq0, m, hm, hml, -⟩ : LeafPage v q := by
    rcases hq with rfl | rfl
    · exact hcs q (List.mem_cons_self ..)
    · exact hr
  exact ⟨q, m, [], .leaf hq0 hm hml, Nat.le_refl 0⟩

/-- An insertion that takes no inner child finds its leaf. -/
theorem Shape.exists_path (hs : Shows t v) (h : Shape v) (hroot : v.rootPid ≠ 0) {key : BTreeKey}
    {fuel : Nat} (hin : innerTaken t.bpm key (fuel + 2) v.rootPid = false) :
    ∃ p leaf crumbs, Path v key v.rootPid p leaf crumbs ∧ crumbs.length ≤ 2 := by
  cases h with
  | empty h0 => exact absurd h0 hroot
  | leaf hl =>
    obtain ⟨h0, n, hn, hl, -⟩ := hl
    exact ⟨_, n, [], .leaf h0 hn hl, by simp⟩
  | one hb =>
    obtain ⟨p, leaf, crumbs, hpath, hlen⟩ := hb.exists_path hs hin
    exact ⟨p, leaf, crumbs, hpath, by omega⟩
  | two h0 hn hk hv hr _ hp hq =>
    refine exists_path_of_children hs h0 hn hv (by simp [hk]) hin ?_
    intro q hq' hin'
    rcases hq' with rfl | rfl
    · exact hp.exists_path hs hin'
    · exact (hr ▸ hq).exists_path hs hin'

theorem Shape.diskCount_lt (h : Shape v) : v.diskCount.toNat < 1024 := by
  have := v.maxSize.toNat_lt
  cases h with
  | empty _ hc => omega
  | leaf _ hc => omega
  | one hb hc => have := hb.2.2.1; omega
  | two _ _ _ _ _ _ hp hq hc => have := hp.2.2.1; have := hq.2.2.1; omega

/-- The first insertion makes an empty leaf the root. -/
theorem Shape.createRoot (hs : Shows t v) (htidy : v.Tidy) (h : Shape v) (hroot : v.rootPid = 0) :
    ∃ t₁, BTree.createRoot t = (.ok (), t₁) ∧ Shows t₁ v.createRoot ∧ v.createRoot.Tidy ∧
      Shape v.createRoot ∧ v.createRoot.rootPid ≠ 0 ∧
      v.createRoot.node v.createRoot.rootPid = some View.emptyLeaf := by
  have hlt := h.diskCount_lt
  have hid : v.newId ≠ 0 := View.newId_ne_zero (by omega)
  obtain ⟨t₁, hr₁, h₁⟩ := createRoot_ok hs hroot hid
  have hcount₁ : v.createRoot.diskCount.toNat = v.diskCount.toNat + 1 := View.diskCount_succ_toNat hid
  have hnode : v.createRoot.node v.createRoot.rootPid = some View.emptyLeaf := by
    simp [View.createRoot, View.addPage]
  refine ⟨t₁, hr₁, h₁, htidy.createRoot (by omega), .leaf ⟨hid, _, hnode, rfl, Nat.zero_le _⟩ ?_, hid,
    hnode⟩
  cases h with
  | empty _ hc => rw [hcount₁, hc]
  | leaf hl => exact absurd hroot hl.1
  | one hb => exact absurd hroot hb.1
  | two h0 => exact absurd hroot h0

/-- One insertion, with the path of its search. -/
theorem Shape.insert (hs : Shows t v) (htidy : v.Tidy) (hm : 2 ≤ v.maxSize.toNat) (h : Shape v)
    {key : BTreeKey} {val : RID} {p : PageId} {leaf : BTreePage} {crumbs : List Crumb}
    (hpath : Path v key v.rootPid p leaf crumbs) (hlen : crumbs.length < 2 ^ 32) (hk : 1 ≤ key.length)
    (hover : (∀ k ∈ leaf.keys, cmpKeys k key ≠ 0) → NoInnerOverflow v leaf crumbs)
    (hfit : AllFit (BTree.insert key val t).2) :
    ∃ r t' v', BTree.insert key val t = (.ok r, t') ∧ Shows t' v' ∧ v'.Tidy ∧ Shape v' ∧
      v'.maxSize = v.maxSize ∧ InsertStep v key val p leaf crumbs r v' := by
  rcases insert_step hs htidy.packed hpath hlen hk hover hfit with
    ⟨r, t', v', hr, h', hstep⟩ | ⟨-, hwrap⟩
  · obtain ⟨htidy', hmax⟩ := hstep.tidy htidy
    exact ⟨r, t', v', hr, h', htidy', h.step hs htidy hm hpath hstep, hmax, hstep⟩
  · have := h.diskCount_lt
    omega

/-- One insertion. -/
theorem insertSafe_step (hs : Shows t v) (htidy : v.Tidy) (hm : 2 ≤ v.maxSize.toNat) (h : Shape v)
    {op : BTreeKey × RID} (hop : InsertSafe t op) :
    ∃ r t' v', BTree.insertOp op t = (.ok r, t') ∧ Shows t' v' ∧ v'.Tidy ∧ Shape v' ∧
      v'.maxSize = v.maxSize := by
  obtain ⟨hkey, hfit, hsafe⟩ := hop
  by_cases hroot : v.rootPid = 0
  · obtain ⟨t₁, hr₁, h₁, htidy₁, hshape₁, hroot₁, hnode₁⟩ := h.createRoot hs htidy hroot
    have hrun := insert_createRoot hr₁ h₁ hroot₁ op.1 op.2
    rw [BTree.insertOp, hrun] at hfit
    obtain ⟨r, t', v', hr, h', htidy', hshape', hmax, -⟩ := hshape₁.insert h₁ htidy₁ hm
      (.leaf hroot₁ hnode₁ rfl) (by simp) hkey (fun _ => trivial) hfit
    exact ⟨r, t', v', hrun.trans hr, h', htidy', hshape', hmax⟩
  · rw [hs.rootPid] at hsafe
    obtain ⟨hin, hover⟩ := hsafe hroot
    obtain ⟨p, leaf, crumbs, hpath, hlen⟩ := h.exists_path hs hroot hin
    have hlen' : crumbs.length < 2 ^ 32 := by omega
    obtain ⟨r, t', v', hr, h', htidy', hshape', hmax, -⟩ := h.insert hs htidy hm hpath hlen' hkey
      (noInnerOverflow_of hs hpath hlen' hover) hfit
    exact ⟨r, t', v', hr, h', htidy', hshape', hmax⟩

end Runs

/-- **Capacity.** Every run of insertions on a fresh index whose steps are safe completes, and keeps
every node within its capacity and the metadata page intact, whatever the order of the keys. -/
theorem insert_run_capacity (m : UInt8) (hm : 2 ≤ m.toNat) (junk : BTree Disk)
    (ops : List (BTreeKey × RID))
    (hops : Prog.Meets BTree.insertOp InsertSafe ops (BTree.opened m junk)) :
    ∃ rs t, Prog.runAll BTree.insertOp ops (BTree.opened m junk) = (.ok rs, t) ∧
      WithinCapacity m t := by
  obtain ⟨rs, t, hrun, v, hs, htidy, hshape, hmax⟩ := Prog.runAll_inv
    (fun _ _ t => ∃ v, Shows t v ∧ v.Tidy ∧ Shape v ∧ v.maxSize = m)
    (fun _ _ t op _ ⟨v, hs, htidy, hshape, hmax⟩ hop => by
      obtain ⟨r, t', v', hr, hs', htidy', hshape', hmax'⟩ :=
        insertSafe_step hs htidy (by rw [hmax]; exact hm) hshape hop
      exact ⟨r, t', hr, v', hs', htidy', hshape', hmax'.trans hmax⟩)
    ⟨View.fresh m, Shows.opened_fresh m junk, View.fresh_tidy m, .empty rfl rfl, rfl⟩ hops
  refine ⟨rs, t, hrun, fun p hp => ?_, ?_⟩
  · obtain ⟨n, hn, hle⟩ := hshape.capacity hs (by rw [hmax]; omega) hp
    exact ⟨n, hn, hmax ▸ hle⟩
  · obtain ⟨data, hd, hmeta⟩ := hs.meta_
    exact ⟨data, hd, hmeta.magic, hmeta.max.trans (htidy.max.trans hmax)⟩

/-- Insertions of keys of one byte. -/
def byteOps (bs : List UInt8) : List (BTreeKey × RID) := bs.map fun b => (byteKey b, ⟨b.toUInt32, 0⟩)

set_option maxRecDepth 4096 in
theorem insert_run_capacity_split :
    ∃ rs t, Prog.runAll BTree.insertOp (byteOps [67, 68, 69, 70, 66]) (BTree.opened 2 .zeroMemory) =
      (.ok rs, t) ∧ WithinCapacity 2 t :=
  insert_run_capacity 2 (by decide) .zeroMemory (byteOps [67, 68, 69, 70, 66]) (by decide +kernel)

set_option maxRecDepth 4096 in
/-- Seven ascending keys with at most two in a node: the seventh overflows a node that is neither a
leaf nor the root, and the node split in its place goes to page 0. -/
theorem insert_run_capacity_fails :
    ∃ rs t, Prog.runAll BTree.insertOp (byteOps [67, 68, 69, 70, 71, 72, 73])
        (BTree.opened 2 .zeroMemory) = (.ok rs, t) ∧ AllFit t ∧ ¬ WithinCapacity 2 t := by
  obtain ⟨rs, hrun⟩ := Prog.eq_ok_of_isOk (m := Prog.runAll BTree.insertOp
    (byteOps [67, 68, 69, 70, 71, 72, 73])) (s := BTree.opened 2 .zeroMemory) (by decide +kernel)
  refine ⟨rs, _, hrun, by decide +kernel, ?_⟩
  rintro ⟨-, data, hd, hmagic, -⟩
  have : ((Prog.runAll BTree.insertOp (byteOps [67, 68, 69, 70, 71, 72, 73])
      (BTree.opened 2 .zeroMemory)).2.bpm 0).any
        (fun data => decodeUint32 (data.slice 0 4) = BTREE_INDEX) = false := by decide +kernel
  rw [hd] at this
  simp [hmagic] at this

end SomeDB
