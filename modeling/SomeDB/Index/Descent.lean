import SomeDB.Index.View

/-!
# The descent to a leaf

`Path v key p q leaf crumbs`: from page `p` the key leads to the leaf at `q`, by first children and
rightmost children only; `crumbs` are the breadcrumbs of the descent. `findLeaf_of_path` runs
`findLeaf` along a path. `path_of_findLeaf` is the converse: a descent that returned and left no
breadcrumb of an inner child followed a path, or it ended on the metadata page.
-/

namespace SomeDB

open Lib

/-- The scan of `findLeaf` finds no inner child in a node with these keys. -/
def NoInner (key : BTreeKey) (keys : List BTreeKey) : Prop :=
  ∀ i a b, 1 ≤ i → keys[i - 1]? = some a → keys[i]? = some b →
    ¬ (cmpKeys a key > 0 ∧ cmpKeys b key ≤ 0)

/-- The key leads from page `p` to the leaf at page `q` and leaves `crumbs` on the way. -/
inductive Path (v : View) (key : BTreeKey) : PageId → PageId → BTreePage → List Crumb → Prop
  | leaf {p : PageId} {n : BTreePage} (hp : p ≠ 0) (hn : v.node p = some n) (hl : n.isLeaf = true) :
    Path v key p p n []
  | first {p q c : PageId} {n leaf : BTreePage} {crumbs : List Crumb} {k : BTreeKey}
    {cs : List PageId} (hp : p ≠ 0) (hn : v.node p = some n) (hv : n.values = .children cs)
    (hk : n.keys[0]? = some k) (hlt : BTreeKey.Lt key k) (hc : cs[0]? = some c)
    (rest : Path v key c q leaf crumbs) : Path v key p q leaf (crumbs ++ [(p, 0)])
  | last {p q : PageId} {n leaf : BTreePage} {crumbs : List Crumb} {k : BTreeKey}
    {cs : List PageId} (hp : p ≠ 0) (hn : v.node p = some n) (hv : n.values = .children cs)
    (hk : n.keys[0]? = some k) (hge : ¬ BTreeKey.Lt key k) (hno : NoInner key n.keys)
    (rest : Path v key n.rightmostPtr q leaf crumbs) : Path v key p q leaf (crumbs ++ [(p, -1)])

namespace Path

variable {v : View} {key : BTreeKey} {p q : PageId} {leaf : BTreePage} {crumbs : List Crumb}

theorem start (h : Path v key p q leaf crumbs) : p ≠ 0 ∧ ∃ n, v.node p = some n := by
  cases h with
  | leaf hp hn => exact ⟨hp, _, hn⟩
  | first hp hn => exact ⟨hp, _, hn⟩
  | last hp hn => exact ⟨hp, _, hn⟩

theorem leaf_spec (h : Path v key p q leaf crumbs) :
    q ≠ 0 ∧ v.node q = some leaf ∧ leaf.isLeaf = true := by
  induction h with
  | leaf hp hn hl => exact ⟨hp, hn, hl⟩
  | first _ _ _ _ _ _ _ ih => exact ih
  | last _ _ _ _ _ _ _ ih => exact ih

theorem crumb_spec (h : Path v key p q leaf crumbs) :
    ∀ c ∈ crumbs, c.1 ≠ 0 ∧ ∃ n, v.node c.1 = some n ∧ n.isLeaf = false ∧ n.keys ≠ [] := by
  have hinner : ∀ {n : BTreePage} {cs : List PageId} {k : BTreeKey}, n.values = .children cs →
      n.keys[0]? = some k → n.isLeaf = false ∧ n.keys ≠ [] := by
    intro n cs k hv hk
    refine ⟨by simp [BTreePage.isLeaf, hv], ?_⟩
    rintro hnil
    simp [hnil] at hk
  induction h with
  | leaf => simp
  | first hp hn hv hk _ _ _ ih =>
    intro c hc
    rcases List.mem_append.mp hc with hc | hc
    · exact ih c hc
    · rw [List.mem_singleton.mp hc]; exact ⟨hp, _, hn, hinner hv hk⟩
  | last hp hn hv hk _ _ _ ih =>
    intro c hc
    rcases List.mem_append.mp hc with hc | hc
    · exact ih c hc
    · rw [List.mem_singleton.mp hc]; exact ⟨hp, _, hn, hinner hv hk⟩

/-- A path without breadcrumbs starts at the leaf. -/
theorem eq_of_nil (h : Path v key p q leaf []) : q = p := by
  generalize hc : ([] : List Crumb) = crumbs at h
  cases h with
  | leaf => rfl
  | first => simp at hc
  | last => simp at hc

/-- The breadcrumb at the bottom is that of the page where the path starts. -/
theorem bottom {c : Crumb} (h : Path v key p q leaf (crumbs ++ [c])) : c.1 = p := by
  generalize hc : crumbs ++ [c] = cs at h
  cases h with
  | leaf => simp at hc
  | first => simpa using congrArg (Prod.fst ·) (List.singleton_inj.mp (List.append_inj' hc rfl).2)
  | last => simpa using congrArg (Prod.fst ·) (List.singleton_inj.mp (List.append_inj' hc rfl).2)

end Path

/-! ## Inner children -/

/-- The test of `findLeaf` for an inner child succeeds at some index of a node with these keys. -/
def innerHit (key : BTreeKey) (keys : List BTreeKey) : Bool :=
  (keys.zip keys.tail).any fun ab => cmpKeys ab.1 key > 0 ∧ cmpKeys ab.2 key ≤ 0

/-- `findLeaf` takes an inner child on its way down from page `pid`. -/
def innerTaken (d : Disk) (key : BTreeKey) : Nat → PageId → Bool
  | 0, _ => false
  | fuel + 1, pid =>
    match d.nodeAt pid with
    | some ⟨k :: keys, _, rightmostPtr, _, .children (c :: _)⟩ =>
      if cmpKeys k key > 0 then innerTaken d key fuel c
      else innerHit key (k :: keys) || innerTaken d key fuel rightmostPtr
    | _ => false

theorem noInner_of_innerHit {key : BTreeKey} {keys : List BTreeKey} (h : innerHit key keys = false) :
    NoInner key keys := by
  intro i a b hi ha hb hhit
  have hmem : (a, b) ∈ keys.zip keys.tail := by
    refine List.mem_of_getElem? (i := i - 1) ?_
    rw [List.getElem?_zip_eq_some]
    refine ⟨ha, ?_⟩
    rw [List.getElem?_tail, Nat.sub_add_cancel hi, hb]
  have : innerHit key keys = true := List.any_eq_true.mpr ⟨(a, b), hmem, by simpa using hhit⟩
  rw [h] at this
  cases this

/-- One turn of the search: if the child it goes to has a path, so has the node. -/
theorem exists_path_of_children {t : BTree Disk} {v : View} (hs : Shows t v) {key : BTreeKey}
    {p c : PageId} {n : BTreePage} {cs : List PageId} {fuel len : Nat} (hp : p ≠ 0)
    (hn : v.node p = some n) (hv : n.values = .children (c :: cs)) (hk : n.keys ≠ [])
    (hin : innerTaken t.bpm key (fuel + 1) p = false)
    (hchild : ∀ q, q = c ∨ q = n.rightmostPtr → innerTaken t.bpm key fuel q = false →
      ∃ r leaf crumbs, Path v key q r leaf crumbs ∧ crumbs.length ≤ len) :
    ∃ r leaf crumbs, Path v key p r leaf crumbs ∧ crumbs.length ≤ len + 1 := by
  rcases n with ⟨_ | ⟨k, keys⟩, flags, rm, next, values⟩
  · exact absurd rfl hk
  · subst hv
    rw [innerTaken, hs.node p hp, hn] at hin
    by_cases hlt : BTreeKey.Lt key k
    · simp only [if_pos (BTreeKey.cmpKeys_pos.mpr hlt)] at hin
      obtain ⟨r, leaf, crumbs, hpath, hlen⟩ := hchild c (.inl rfl) hin
      exact ⟨r, leaf, _, .first hp hn rfl rfl hlt rfl hpath, by simpa using hlen⟩
    · simp only [if_neg (fun h => hlt (BTreeKey.cmpKeys_pos.mp h)), Bool.or_eq_false_iff] at hin
      obtain ⟨r, leaf, crumbs, hpath, hlen⟩ := hchild rm (.inr rfl) hin.2
      exact ⟨r, leaf, _, .last hp hn rfl rfl hlt (noInner_of_innerHit hin.1) hpath,
        by simpa using hlen⟩

/-! ## Running the search -/

theorem findLeafScan_of_noInner {σ : Type} [PageStore σ] {t : BTree σ} {key : BTreeKey} {curr : PageId}
    {temp : BTreePage} (hno : NoInner key temp.keys) (crumbs : List Crumb) (n i : Nat) (hi : 1 ≤ i)
    (hle : i ≤ temp.keys.length) (hn : temp.keys.length < i + n) :
    BTree.findLeafScan key n i curr temp crumbs t = (.ok (curr, temp, crumbs), t) := by
  induction n generalizing i with
  | zero => omega
  | succ n ih =>
    rw [BTree.findLeafScan]
    split
    · next hlt =>
      obtain ⟨a, ha⟩ : ∃ a, temp.keys[i - 1]? = some a := ⟨_, List.getElem?_eq_getElem (by omega)⟩
      obtain ⟨b, hb⟩ : ∃ b, temp.keys[i]? = some b := ⟨_, List.getElem?_eq_getElem hlt⟩
      rw [vecAt_eq ha, vecAt_eq hb, Prog.lift_ok_bind, Prog.lift_ok_bind, if_neg (hno i a b hi ha hb)]
      exact ih (i + 1) (by omega) (by omega) (by omega)
    · rfl

section Forward

variable {t : BTree Disk} {v : View} {key : BTreeKey}

theorem findLeafLoop_of_path (h : Shows t v) {p q : PageId} {leaf : BTreePage} {crumbs : List Crumb}
    (hpath : Path v key p q leaf crumbs) :
    ∀ (n : BTreePage) (fuel : Nat) (acc : List Crumb), v.node p = some n → crumbs.length < fuel →
      BTree.findLeafLoop key fuel p n acc t = (.ok (q, leaf, crumbs ++ acc), t) := by
  induction hpath with
  | leaf hp hn hl =>
    intro n fuel acc hn' hf
    rw [hn] at hn'
    cases hn'
    obtain ⟨fuel, rfl⟩ : ∃ f, fuel = f + 1 := ⟨fuel - 1, by simp at hf; omega⟩
    rw [BTree.findLeafLoop, if_pos hl]
    rfl
  | first hp hn hv hk hlt hc rest ih =>
    intro n fuel acc hn' hf
    rw [hn] at hn'
    cases hn'
    simp only [List.length_append, List.length_singleton] at hf
    obtain ⟨fuel, rfl⟩ : ∃ f, fuel = f + 1 := ⟨fuel - 1, by omega⟩
    obtain ⟨hc0, child, hchild⟩ := rest.start
    rw [BTree.findLeafLoop, if_neg (by simp [BTreePage.isLeaf, hv]), vecAt_eq hk, Prog.lift_ok_bind,
      if_pos (BTreeKey.cmpKeys_pos.mpr hlt)]
    simp only [BTreePage.internalChildren, hv, vecAt_eq hc, Prog.lift_ok_bind]
    rw [Prog.bind_ok (h.fetchNode_ok hc0 hchild)]
    simpa using ih child fuel _ hchild (by omega)
  | last hp hn hv hk hge hno rest ih =>
    intro n fuel acc hn' hf
    rw [hn] at hn'
    cases hn'
    simp only [List.length_append, List.length_singleton] at hf
    obtain ⟨fuel, rfl⟩ : ∃ f, fuel = f + 1 := ⟨fuel - 1, by omega⟩
    obtain ⟨hc0, child, hchild⟩ := rest.start
    rw [BTree.findLeafLoop, if_neg (by simp [BTreePage.isLeaf, hv]), vecAt_eq hk, Prog.lift_ok_bind,
      if_neg (fun hpos => hge (BTreeKey.cmpKeys_pos.mp hpos))]
    have hlen := (h.paired hp hn).2.2
    have hpos := (List.getElem?_eq_some_iff.mp hk).1
    rw [Prog.bind_ok (findLeafScan_of_noInner hno acc 65535 1 (by omega) hpos (by omega))]
    simp only
    rw [Prog.bind_ok (h.fetchNode_ok hc0 hchild)]
    simpa using ih child fuel _ hchild (by omega)

/-- `findLeaf` follows the path from the root. -/
theorem findLeaf_of_path (h : Shows t v) {q : PageId} {leaf : BTreePage} {crumbs : List Crumb}
    (hpath : Path v key v.rootPid q leaf crumbs) (hlen : crumbs.length < 2 ^ 32) :
    BTree.findLeaf key t = (.ok (q, leaf, crumbs), t) := by
  obtain ⟨hp, n, hn⟩ := hpath.start
  rw [BTree.findLeaf, Prog.get_bind, h.rootPid, Prog.bind_ok (h.fetchNode_ok hp hn)]
  simpa using findLeafLoop_of_path h hpath n _ [] hn hlen

end Forward

/-! ## Taking a search apart -/

section Turns

variable {σ : Type} [PageStore σ] {t t' : BTree σ} {key : BTreeKey} {n i : Nat} {curr : PageId} {temp : BTreePage}
  {acc : List Crumb} {r : PageId × BTreePage × List Crumb}

/-- What a turn of the scan does. -/
theorem findLeafScan_succ (h : BTree.findLeafScan key (n + 1) i curr temp acc t = (.ok r, t')) :
    (temp.keys.length ≤ i ∧ r = (curr, temp, acc) ∧ t' = t) ∨
      ∃ prevKey currKey, vecAt temp.keys (i - 1) = .ok prevKey ∧ vecAt temp.keys i = .ok currKey ∧
        (¬ (cmpKeys prevKey key > 0 ∧ cmpKeys currKey key ≤ 0) ∧
            BTree.findLeafScan key n (i + 1) curr temp acc t = (.ok r, t') ∨
          ∃ p child t₁, BTree.fetchNode p t = (.ok child, t₁) ∧
            BTree.findLeafScan key n (i + 1) child.1 child.2 ((curr, (i : Int)) :: acc) t₁ = (.ok r, t')) := by
  rw [BTree.findLeafScan] at h
  split at h
  · obtain ⟨prevKey, hprev, h⟩ := Prog.lift_bind_eq_ok h
    obtain ⟨currKey, hcurr, h⟩ := Prog.lift_bind_eq_ok h
    refine .inr ⟨prevKey, currKey, hprev, hcurr, ?_⟩
    split at h
    · obtain ⟨children, -, h⟩ := Prog.lift_bind_eq_ok h
      obtain ⟨nextPtr, -, h⟩ := Prog.lift_bind_eq_ok h
      obtain ⟨child, t₁, hchild, h⟩ := Prog.bind_eq_ok h
      exact .inr ⟨nextPtr, child, t₁, hchild, h⟩
    · next hno => exact .inl ⟨hno, h⟩
  · next hge =>
    cases h
    exact .inl ⟨Nat.not_lt.mp hge, rfl, rfl⟩

/-- What a turn of the descent does. -/
theorem findLeafLoop_succ (h : BTree.findLeafLoop key (n + 1) curr temp acc t = (.ok r, t')) :
    (temp.isLeaf = true ∧ r = (curr, temp, acc) ∧ t' = t) ∨
      temp.isLeaf = false ∧ ∃ k, vecAt temp.keys 0 = .ok k ∧
        ((cmpKeys k key > 0 ∧ ∃ cs c child t₁, temp.internalChildren = .ok cs ∧ vecAt cs 0 = .ok c ∧
            BTree.fetchNode c t = (.ok child, t₁) ∧
            BTree.findLeafLoop key n child.1 child.2 ((curr, 0) :: acc) t₁ = (.ok r, t')) ∨
          ¬ cmpKeys k key > 0 ∧ ∃ q mid acc' t₁ child t₂,
            BTree.findLeafScan key 65535 1 curr temp acc t = (.ok (q, mid, acc'), t₁) ∧
            BTree.fetchNode mid.rightmostPtr t₁ = (.ok child, t₂) ∧
            BTree.findLeafLoop key n child.1 child.2 ((q, -1) :: acc') t₂ = (.ok r, t')) := by
  rw [BTree.findLeafLoop] at h
  split at h
  · next hleaf =>
    cases h
    exact .inl ⟨hleaf, rfl, rfl⟩
  · next hinner =>
    obtain ⟨k, hk, h⟩ := Prog.lift_bind_eq_ok h
    refine .inr ⟨Bool.eq_false_iff.mpr hinner, k, hk, ?_⟩
    split at h
    · next hpos =>
      obtain ⟨cs, hcs, h⟩ := Prog.lift_bind_eq_ok h
      obtain ⟨c, hc, h⟩ := Prog.lift_bind_eq_ok h
      obtain ⟨child, t₁, hchild, h⟩ := Prog.bind_eq_ok h
      exact .inl ⟨hpos, cs, c, child, t₁, hcs, hc, hchild, h⟩
    · next hpos =>
      obtain ⟨⟨q, mid, acc'⟩, t₁, hscan, h⟩ := Prog.bind_eq_ok h
      obtain ⟨child, t₂, hchild, h⟩ := Prog.bind_eq_ok h
      exact .inr ⟨hpos, q, mid, acc', t₁, child, t₂, hscan, hchild, h⟩

end Turns

section Backward

variable {t t' : BTree Disk} {v : View} {key : BTreeKey}

/-- A scan that returned left everything as it was, or a breadcrumb of an inner child. -/
theorem findLeafScan_inv {n i : Nat} {curr curr' : PageId} {temp temp' : BTreePage}
    {acc acc' : List Crumb} (hi : 1 ≤ i)
    (h : BTree.findLeafScan key n i curr temp acc t = (.ok (curr', temp', acc'), t')) :
    t = t' ∧ acc <:+ acc' ∧ ((curr' = curr ∧ temp' = temp ∧ acc' = acc ∧
      ∀ j a b, i ≤ j → temp.keys[j - 1]? = some a → temp.keys[j]? = some b →
        ¬ (cmpKeys a key > 0 ∧ cmpKeys b key ≤ 0)) ∨ ∃ c ∈ acc', 0 < c.2) := by
  induction n generalizing i curr temp acc with
  | zero => cases h
  | succ n ih =>
    rcases findLeafScan_succ h with ⟨hge, hr, rfl⟩ | ⟨a, b, ha, hb, ⟨hno, h⟩ | ⟨p, child, t₁, hchild, h⟩⟩
    · cases hr
      refine ⟨rfl, List.suffix_rfl, .inl ⟨rfl, rfl, rfl, ?_⟩⟩
      intro j x y hj _ hy
      rw [List.getElem?_eq_none (by omega)] at hy
      cases hy
    · obtain ⟨rfl, hsuf, hres⟩ := ih (by omega) h
      refine ⟨rfl, hsuf, ?_⟩
      rcases hres with ⟨rfl, rfl, rfl, hrest⟩ | hbad
      · refine .inl ⟨rfl, rfl, rfl, ?_⟩
        intro j x y hj hx hy
        rcases Nat.eq_or_lt_of_le hj with rfl | hj
        · rw [vecAt_eq hx] at ha
          rw [vecAt_eq hy] at hb
          cases ha
          cases hb
          exact hno
        · exact hrest j x y hj hx hy
      · exact .inr hbad
    · obtain ⟨rfl, -, -⟩ := Shows.fetchNode_inv hchild
      obtain ⟨rfl, hsuf, -⟩ := ih (by omega) h
      refine ⟨rfl, (List.suffix_cons _ _).trans hsuf, .inr ⟨(curr, (i : Int)), ?_, by simp; omega⟩⟩
      exact hsuf.subset (List.mem_cons_self ..)

/-- Where a search can end: at the leaf of a path, or at the metadata page read as a leaf. -/
def EndsAt (v : View) (key : BTreeKey) (p q : PageId) (leaf : BTreePage) (crumbs : List Crumb) :
    Prop :=
  Path v key p q leaf crumbs ∨ q = 0 ∧ leaf.keys = []

theorem findLeafLoop_inv (hs : Shows t v) {fuel : Nat} {p q : PageId} {n leaf : BTreePage}
    {acc crumbs : List Crumb} (hn : t.bpm.nodeAt p = some n)
    (h : BTree.findLeafLoop key fuel p n acc t = (.ok (q, leaf, crumbs), t')) :
    t = t' ∧ ∃ crumbs', crumbs = crumbs' ++ acc ∧
      ((∀ c ∈ crumbs, c.2 ≤ 0) → EndsAt v key p q leaf crumbs') := by
  induction fuel generalizing p n acc with
  | zero => cases h
  | succ fuel ih =>
    -- the metadata page has no keys
    have hkeys : ∀ {k}, vecAt n.keys 0 = .ok k → p ≠ 0 ∧ v.node p = some n := by
      intro k hk
      have hp : p ≠ 0 := by
        rintro rfl
        rw [hs.nodeAt_zero hn] at hk
        cases hk
      exact ⟨hp, (hs.node p hp).symm.trans hn⟩
    rcases findLeafLoop_succ h with ⟨hleaf, hr, rfl⟩ | ⟨hinner, k, hk,
      ⟨hpos, cs, c, ⟨c', child⟩, t₁, hcs, hc, hchild, h⟩ | ⟨hpos, q', mid, acc', t₁, ⟨c', child⟩, t₂, hscan, hchild, h⟩⟩
    · cases hr
      refine ⟨rfl, [], rfl, fun _ => ?_⟩
      by_cases hq : q = 0
      · subst hq
        exact .inr ⟨rfl, hs.nodeAt_zero hn⟩
      · exact .inl (.leaf hq ((hs.node q hq).symm.trans hn) hleaf)
    · obtain ⟨hp, hv⟩ := hkeys hk
      obtain ⟨rfl, rfl, hchild⟩ := Shows.fetchNode_inv hchild
      obtain ⟨rfl, crumbs', rfl, hend⟩ := ih hchild h
      refine ⟨rfl, crumbs' ++ [(p, 0)], by simp, fun hle => ?_⟩
      rcases hend hle with hpath | hzero
      · exact .inl (.first hp hv (BTreePage.values_of_internalChildren hcs) (getElem?_of_vecAt hk)
          (BTreeKey.cmpKeys_pos.mp hpos) (getElem?_of_vecAt hc) hpath)
      · exact .inr hzero
    · obtain ⟨hp, hv⟩ := hkeys hk
      obtain ⟨rfl, hsuf, hscan⟩ := findLeafScan_inv (by omega) hscan
      obtain ⟨rfl, rfl, hchild⟩ := Shows.fetchNode_inv hchild
      obtain ⟨rfl, crumbs', rfl, hend⟩ := ih hchild h
      rcases hscan with ⟨rfl, rfl, rfl, hno⟩ | ⟨c, hc, hpos⟩
      · refine ⟨rfl, crumbs' ++ [(q', -1)], by simp, fun hle => ?_⟩
        rcases hend hle with hpath | hzero
        · obtain ⟨cs, hcs⟩ := BTreePage.values_of_not_isLeaf (Bool.eq_false_iff.mp hinner)
          exact .inl (.last hp hv hcs (getElem?_of_vecAt hk)
            (fun hlt => hpos (BTreeKey.cmpKeys_pos.mpr hlt)) hno hpath)
        · exact .inr hzero
      · obtain ⟨pre, rfl⟩ := hsuf
        refine ⟨rfl, crumbs' ++ [(q', -1)] ++ pre, by simp, fun hle => ?_⟩
        have := hle c (by simp at hc ⊢; tauto)
        omega

/-- A search that returned and took no inner child followed a path, or ended on page 0. -/
theorem path_of_findLeaf (hs : Shows t v) {q : PageId} {leaf : BTreePage} {crumbs : List Crumb}
    (h : BTree.findLeaf key t = (.ok (q, leaf, crumbs), t')) (hle : ∀ c ∈ crumbs, c.2 ≤ 0) :
    t = t' ∧ EndsAt v key v.rootPid q leaf crumbs := by
  rw [BTree.findLeaf, Prog.get_bind, hs.rootPid] at h
  obtain ⟨⟨p, n⟩, t₁, h₁, h⟩ := Prog.bind_eq_ok h
  obtain ⟨rfl, rfl, hn⟩ := Shows.fetchNode_inv h₁
  obtain ⟨rfl, crumbs', rfl, hend⟩ := findLeafLoop_inv hs hn h
  refine ⟨rfl, ?_⟩
  rw [List.append_nil] at hle ⊢
  exact hend (by simpa using hle)

end Backward

end SomeDB
