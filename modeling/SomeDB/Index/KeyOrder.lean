import SomeDB.Index.SortedInsert

/-!
# Key order and node order

* Strictly below (`BTreeKey.Lt`) is transitive, so a key that compares non-zero with every key of an
  ascending node has one place in it, and `insertIntoNode` puts it there (`insertIntoNode_sorted`).
* `cmpKeys` is 0 for a key and its prefixes, and `operator==` is not. The two agree on keys of which none is
  a proper prefix of the other, and only there (`cmpKeys_order_iff`).
-/

namespace SomeDB

open Lib

/-! ## Sorted insertion -/

/-- The pair is put in behind the pairs with smaller keys and before those with larger ones. -/
def SortedInto {α : Type} (key : BTreeKey) (val : α) (old new : List (BTreeKey × α)) : Prop :=
  ∃ pre post, old = pre ++ post ∧ new = pre ++ (key, val) :: post ∧
    (∀ kv ∈ pre, BTreeKey.Lt kv.1 key) ∧ ∀ kv ∈ post, BTreeKey.Lt key kv.1

section Insert

variable {α : Type} {key : BTreeKey} {val : α} {keys : List BTreeKey} {vals : List α} {i : Nat}

theorem zip_putAt (hv : vals.length = keys.length) (hi : i ≤ keys.length) (key : BTreeKey) (val : α) :
    (putAt keys i key).zip (putAt vals i val) = putAt (keys.zip vals) i (key, val) := by
  rw [putAt, putAt, List.zip_append (by simp; omega), List.zip_cons_cons, putAt, List.zip,
    List.take_zipWith, List.drop_zipWith]

/-- A new key keeps the keys ascending. -/
theorem PlaceOf.pairwise (hi : PlaceOf key keys i) (hs : keys.Pairwise BTreeKey.Lt)
    (hnew : ∀ k ∈ keys, cmpKeys k key ≠ 0) : (putAt keys i key).Pairwise BTreeKey.Lt := by
  obtain ⟨hlo, hhi⟩ := hi.lt hs hnew
  rw [← List.take_append_drop i keys, List.pairwise_append] at hs
  obtain ⟨hpre, hpost, hcross⟩ := hs
  rw [putAt, List.pairwise_append, List.pairwise_cons]
  refine ⟨hpre, ⟨hhi, hpost⟩, fun a ha b hb => ?_⟩
  rcases List.mem_cons.mp hb with rfl | hb
  · exact hlo a ha
  · exact hcross a ha b hb

theorem PlaceOf.sortedInto (hi : PlaceOf key keys i) (hs : keys.Pairwise BTreeKey.Lt)
    (hnew : ∀ k ∈ keys, cmpKeys k key ≠ 0) (hv : vals.length = keys.length) (val : α) :
    SortedInto key val (keys.zip vals) ((putAt keys i key).zip (putAt vals i val)) := by
  obtain ⟨hlo, hhi⟩ := hi.lt hs hnew
  have hkeys : ∀ {ks : List BTreeKey} {vs : List α} {kv : BTreeKey × α}, kv ∈ ks.zip vs → kv.1 ∈ ks :=
    fun h => (List.of_mem_zip h).1
  refine ⟨(keys.zip vals).take i, (keys.zip vals).drop i, (List.take_append_drop ..).symm,
    zip_putAt hv hi.1 key val, fun kv hkv => hlo _ ?_, fun kv hkv => hhi _ ?_⟩
  · rw [List.zip, List.take_zipWith] at hkv
    exact hkeys hkv
  · rw [List.zip, List.drop_zipWith] at hkv
    exact hkeys hkv

end Insert

/-- **Sorted insertion.** Into a node whose keys are strictly ascending, a key that compares non-zero with
each of them is put in at its sorted position with its value, and the other pairs keep their order. -/
theorem insertIntoNode_sorted (n : BTreePage) (key : BTreeKey) (hlen : n.keys.length < 65535)
    (hasc : n.keys.IsChain BTreeKey.Lt) (hvals : n.valCount = n.keys.length)
    (hnew : ∀ k ∈ n.keys, cmpKeys key k ≠ 0) :
    (∀ rids rid, n.values = .records rids → ∃ keys' rids',
      n.insertRecord key rid = .ok { n with keys := keys', values := .records rids' } ∧
      keys'.Pairwise BTreeKey.Lt ∧ rids'.length = keys'.length ∧
      SortedInto key rid (n.keys.zip rids) (keys'.zip rids')) ∧
    (∀ pids pid, n.values = .children pids → ∃ keys' pids',
      n.insertChild key pid = .ok { n with keys := keys', values := .children pids' } ∧
      keys'.Pairwise BTreeKey.Lt ∧ pids'.length = keys'.length ∧
      SortedInto key pid (n.keys.zip pids) (keys'.zip pids')) := by
  have : Trans BTreeKey.Lt BTreeKey.Lt BTreeKey.Lt := ⟨BTreeKey.lt_trans⟩
  have hs : n.keys.Pairwise BTreeKey.Lt := hasc.pairwise
  have hnew' : ∀ k ∈ n.keys, cmpKeys k key ≠ 0 := by
    intro k hk h0
    have := cmpKeys_swap k key
    exact hnew k hk (by omega)
  constructor
  · intro rids rid hv
    have hlen' : rids.length = n.keys.length := (BTreePage.valCount_records hv).symm.trans hvals
    obtain ⟨i, hi, hrun⟩ := BTreePage.insertRecord_ok hv hvals hlen key rid
    refine ⟨_, _, hrun, hi.pairwise hs hnew', ?_, hi.sortedInto hs hnew' hlen' rid⟩
    rw [putAt_length _ _ hi.1, putAt_length _ _ (by rw [hlen']; exact hi.1), hlen']
  · intro pids pid hv
    have hlen' : pids.length = n.keys.length := (BTreePage.valCount_children hv).symm.trans hvals
    obtain ⟨i, hi, hrun⟩ := BTreePage.insertChild_ok hv hvals hlen key pid
    refine ⟨_, _, hrun, hi.pairwise hs hnew', ?_, hi.sortedInto hs hnew' hlen' pid⟩
    rw [putAt_length _ _ hi.1, putAt_length _ _ (by rw [hlen']; exact hi.1), hlen']

/-- A key between the two keys of a leaf. -/
theorem insertIntoNode_sorted_middle :
    ∃ keys' rids', BTreePage.insertRecord ⟨[byteKey 1, byteKey 3], 0, 0, 0, .records [⟨1, 0⟩, ⟨3, 0⟩]⟩
        (byteKey 2) ⟨2, 0⟩ =
        .ok ⟨keys', 0, 0, 0, .records rids'⟩ ∧
      keys'.Pairwise BTreeKey.Lt ∧ rids'.length = keys'.length ∧
      SortedInto (byteKey 2) ⟨2, 0⟩ [(byteKey 1, ⟨1, 0⟩), (byteKey 3, ⟨3, 0⟩)] (keys'.zip rids') :=
  (insertIntoNode_sorted ⟨[byteKey 1, byteKey 3], 0, 0, 0, .records [⟨1, 0⟩, ⟨3, 0⟩]⟩ (byteKey 2) (by decide)
    (by decide) rfl (by decide)).1 _ ⟨2, 0⟩ rfl

/-! ## The order of keys -/

/-- `BTreeKey::operator==`. -/
def keyEq (key other : BTreeKey) : Bool :=
  key.length == other.length && memcmp key.length key.data other.data == 0

theorem keyEq_iff {a b : BTreeKey} : keyEq a b = true ↔ a = b := by
  rw [keyEq, Bool.and_eq_true, beq_iff_eq, beq_iff_eq]
  constructor
  · rintro ⟨hlen, hcmp⟩
    simp only [BTreeKey.length] at hlen hcmp
    -- of two lists of one length that are prefixes of one another
    have hdata : a.data = b.data := by
      rcases (BTreeKey.memcmp_eq_zero _ _ _ (by omega)).mp hcmp with h | h
      · exact h.eq_of_length hlen
      · exact (h.eq_of_length hlen.symm).symm
    cases a
    cases b
    cases hdata
    rfl
  · rintro rfl
    exact ⟨rfl, memcmp_self _ _⟩

/-- `a` is a proper prefix of `b`. -/
def ProperPrefix (a b : BTreeKey) : Prop := a.data <+: b.data ∧ a ≠ b

instance (a b : BTreeKey) : Decidable (ProperPrefix a b) := inferInstanceAs (Decidable (_ ∧ _))

/-- On these keys `cmpKeys` is a total order that agrees with `operator==`. -/
def OrderAgrees (a b c : BTreeKey) : Prop :=
  (cmpKeys a b = 0 ↔ keyEq a b = true) ∧ (0 < cmpKeys a b ↔ cmpKeys b a < 0) ∧
    (cmpKeys a b ≤ 0 → cmpKeys b c ≤ 0 → cmpKeys a c ≤ 0)

theorem cmpKeys_eq_zero_iff {a b : BTreeKey} :
    cmpKeys a b = 0 ↔ a = b ∨ ProperPrefix a b ∨ ProperPrefix b a := by
  rw [BTreeKey.cmpKeys_eq_zero]
  by_cases hab : a = b
  · simp [hab]
  · simp [ProperPrefix, hab, Ne.symm hab]

/-- What is below a key is not above the prefixes and the extensions of that key. -/
theorem cmpKeys_nonpos_of_lt {a b c : BTreeKey} (hab : BTreeKey.Lt a b) (hbc : cmpKeys b c = 0) :
    cmpKeys a c ≤ 0 := by
  by_contra hca
  have hlt : BTreeKey.Lt c b := BTreeKey.lt_trans (BTreeKey.cmpKeys_pos.mp (by omega)) hab
  have hne := BTreeKey.cmpKeys_pos.mpr hlt
  omega

theorem orderAgrees_iff (a b c : BTreeKey) :
    OrderAgrees a b c ↔ ¬ ProperPrefix a b ∧ ¬ ProperPrefix b a := by
  constructor
  · rintro ⟨heq, -, -⟩
    rw [cmpKeys_eq_zero_iff, keyEq_iff] at heq
    exact ⟨fun h => h.2 (heq.mp (.inr (.inl h))), fun h => h.2 (heq.mp (.inr (.inr h))).symm⟩
  · rintro ⟨h₁, h₂⟩
    have heq : cmpKeys a b = 0 ↔ a = b := by
      rw [cmpKeys_eq_zero_iff]
      simp [h₁, h₂]
    refine ⟨heq.trans keyEq_iff.symm, BTreeKey.cmpKeys_pos, fun hab hbc => ?_⟩
    rcases Int.lt_or_eq_of_le hab with hlt | h0
    · rcases Int.lt_or_eq_of_le hbc with hlt' | h0'
      · exact Int.le_of_lt (BTreeKey.lt_trans hlt hlt')
      · exact cmpKeys_nonpos_of_lt hlt h0'
    · rwa [heq.mp h0]

/-! ## The duplicate check of a tree with one leaf -/

/-- The root is the leaf `leaf`. -/
structure SingleLeaf (t : BTree Disk) (leaf : BTreePage) : Prop where
  root : t.rootPid ≠ 0
  node : t.bpm.nodeAt t.rootPid = some leaf
  isLeaf : leaf.isLeaf = true

/-- The insertion returns 0 if and only if the key is stored. -/
def DetectsStored (t : BTree Disk) (leaf : BTreePage) (key : BTreeKey) (val : RID) : Prop :=
  (BTree.insert key val t).1 = .ok 0 ↔ key ∈ leaf.keys

/-- The insertion into the leaf that is the root, after the search. -/
theorem SingleLeaf.insert_eq {t : BTree Disk} {leaf : BTreePage} (h : SingleLeaf t leaf) (key : BTreeKey)
    (val : RID) : BTree.insert key val t =
      (if leaf.keys.any fun leafKey => cmpKeys leafKey key == 0 then pure 0
      else do
        let leaf ← Prog.lift (leaf.insertRecord key val)
        let leaf ← BTree.splitFullLeaf leaf t.rootPid []
        BTree.flushNode t.rootPid leaf
        pure t.rootPid : TreeM Disk PageId) t := by
  have hcreate : BTree.createRoot t = (.ok (), t) := by
    have hle : ¬ t.rootPid ≤ BTREE_METADATA_PAGE_ID := fun hle => h.root (UInt32.le_zero_iff.mp hle)
    rw [BTree.createRoot, Prog.get_bind, if_neg hle]
    rfl
  have hfind : BTree.findLeaf key t = (.ok (t.rootPid, leaf, []), t) := by
    rw [BTree.findLeaf, Prog.get_bind, Prog.bind_ok (Shows.fetchNode_eq h.node)]
    show BTree.findLeafLoop key (2 ^ 32 - 1 + 1) t.rootPid leaf [] t = _
    rw [BTree.findLeafLoop, if_pos h.isLeaf]
    rfl
  rw [BTree.insert, Prog.bind_ok hcreate, Prog.bind_ok hfind]
  simp only
  rw [assert_bind h.root]

theorem SingleLeaf.insert_ok_zero {t : BTree Disk} {leaf : BTreePage} (h : SingleLeaf t leaf)
    (key : BTreeKey) (val : RID) :
    (BTree.insert key val t).1 = .ok 0 ↔ ∃ k ∈ leaf.keys, cmpKeys k key = 0 := by
  rw [h.insert_eq key val]
  by_cases hdup : (leaf.keys.any fun leafKey => cmpKeys leafKey key == 0) = true
  · rw [if_pos hdup]
    exact iff_of_true rfl (by simpa using hdup)
  · rw [if_neg hdup]
    refine iff_of_false (fun hrun => ?_) (by simpa using hdup)
    -- what is returned is the page of the root
    obtain ⟨leaf₁, t₁, -, hrun⟩ := Prog.bind_eq_ok (Prod.ext hrun rfl)
    obtain ⟨leaf₂, t₂, -, hrun⟩ := Prog.bind_eq_ok hrun
    obtain ⟨u, t₃, -, hrun⟩ := Prog.bind_eq_ok hrun
    exact h.root (Except.ok.inj (congrArg Prod.fst hrun))

theorem SingleLeaf.detectsStored_iff {t : BTree Disk} {leaf : BTreePage} (h : SingleLeaf t leaf)
    (key : BTreeKey) (val : RID) : DetectsStored t leaf key val ↔
      key ∈ leaf.keys ∨ ∀ k ∈ leaf.keys, ¬ ProperPrefix k key ∧ ¬ ProperPrefix key k := by
  rw [DetectsStored, h.insert_ok_zero]
  by_cases hmem : key ∈ leaf.keys
  · exact iff_of_true (iff_of_true ⟨key, hmem, cmpKeys_self key⟩ hmem) (.inl hmem)
  · have hne : ∀ k ∈ leaf.keys, k ≠ key := fun k hk he => hmem (he ▸ hk)
    simp only [hmem, iff_false, not_exists, not_and, false_or]
    refine forall₂_congr fun k hk => ?_
    rw [cmpKeys_eq_zero_iff]
    simp [hne k hk]

/-- **The order of keys.** On three keys `cmpKeys` is a total order that agrees with equality if and only if
neither of the first two is a proper prefix of the other. On a tree with one leaf, `insert` returns 0 exactly
for stored keys if and only if the key is stored or no stored key is a proper prefix or a proper extension of
it. -/
theorem cmpKeys_order_iff (a b c : BTreeKey) {t : BTree Disk} {leaf : BTreePage} (h : SingleLeaf t leaf)
    (key : BTreeKey) (val : RID) :
    (OrderAgrees a b c ↔ ¬ ProperPrefix a b ∧ ¬ ProperPrefix b a) ∧ (DetectsStored t leaf key val ↔
      key ∈ leaf.keys ∨ ∀ k ∈ leaf.keys, ¬ ProperPrefix k key ∧ ¬ ProperPrefix key k) :=
  ⟨orderAgrees_iff a b c, h.detectsStored_iff key val⟩

/-- The keys `a` and `ab`. -/
def keyA : BTreeKey := ⟨[97], by decide⟩
def keyAB : BTreeKey := ⟨[97, 98], by decide⟩

/-- An index whose only record is stored under `a`. -/
def oneKeyIndex : BTree Disk := (BTree.insert keyA ⟨1, 1⟩ (BTree.opened 4 .zeroMemory)).2

set_option maxRecDepth 4096 in
theorem singleLeaf_oneKey : SingleLeaf oneKeyIndex ⟨[keyA], 0, 0, 0, .records [⟨1, 1⟩]⟩ :=
  ⟨by decide +kernel, by decide +kernel, rfl⟩

theorem cmpKeys_order_iff_stored : OrderAgrees keyA keyA keyAB ∧
    DetectsStored oneKeyIndex ⟨[keyA], 0, 0, 0, .records [⟨1, 1⟩]⟩ keyA ⟨2, 2⟩ := by
  obtain ⟨horder, hdetects⟩ := cmpKeys_order_iff keyA keyA keyAB singleLeaf_oneKey keyA ⟨2, 2⟩
  exact ⟨horder.mpr (by decide), hdetects.mpr (by decide)⟩

/-- `a` compares equal to `ab`, and `ab` is taken for a duplicate of `a`. -/
theorem cmpKeys_order_fails : ¬ OrderAgrees keyA keyAB keyAB ∧
    ¬ DetectsStored oneKeyIndex ⟨[keyA], 0, 0, 0, .records [⟨1, 1⟩]⟩ keyAB ⟨2, 2⟩ :=
  ⟨fun h => absurd ((orderAgrees_iff ..).mp h) (by decide),
    fun h => absurd ((singleLeaf_oneKey.detectsStored_iff keyAB ⟨2, 2⟩).mp h) (by decide)⟩

end SomeDB
