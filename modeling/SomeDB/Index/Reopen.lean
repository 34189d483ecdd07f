import SomeDB.Index.Form

/-!
# Opening an index again (`BTree::deserialize`)

`serialize()` is flushed only where the root is split and where it collapses. Until the first split of
the root the metadata page has 0 for the root, so a second object that opens the file finds no root
(`index_run_reopens_iff`). From then on the metadata page is right in every state of a run whose calls
are regular: they overflow no internal node but the root, and their searches take no inner child.
-/

namespace SomeDB

open Lib

/-- A second `BTree` object on the same buffer pool obtains the metadata of `t` when it calls
`deserialize()`. `junk` is the memory it is in. -/
def Reopens (junk t : BTree Disk) : Prop :=
  ∃ t', BTree.deserialize { junk with bpm := t.bpm } = (.ok (), t') ∧ t'.bpm = t.bpm ∧
    t'.rootPid = t.rootPid ∧ t'.nodeCount = t.nodeCount ∧ t'.maxSize = t.maxSize

/-- `findLeaf` takes a child between the first and the last one. -/
def takesInner (t : BTree Disk) (key : BTreeKey) : Bool :=
  match (BTree.findLeaf key t).1 with
  | .ok (_, _, crumbs) => crumbs.any fun c => 0 < c.2
  | .error _ => false

/-- The key of an insertion is not empty, and the nodes that the call stores fit in a page. -/
def CallFits (t : BTree Disk) : IndexOp → Prop
  | .insert key val => 1 ≤ key.length ∧ AllFit (BTree.insert key val t).2
  | .remove key => AllFit (BTree.remove key t).2

/-- The search of the call takes no inner child, and the call overflows no internal node but the root. -/
def CallRegular (t : BTree Disk) (op : IndexOp) : Prop :=
  CallFits t op ∧ match op with
    | .insert key _ => t.rootPid ≠ 0 → takesInner t key = false ∧ overflowsInner t key = false
    | .remove key => takesInner t key = false

/-- The call splits the root, a leaf: it inserts a key that is not in it, and the leaf is full. -/
def splitsRootLeaf (t : BTree Disk) : IndexOp → Bool
  | .insert key _ =>
    if t.rootPid = 0 then t.maxSize.toNat = 0
    else (t.bpm.nodeAt t.rootPid).any fun root =>
      root.isLeaf && (root.keys.all fun k => cmpKeys k key ≠ 0) && t.maxSize.toNat ≤ root.keys.length
  | .remove _ => false

/-- Some call of the run splits the root while it is a leaf. -/
def splitsRootLeafIn : List IndexOp → BTree Disk → Bool
  | [], _ => false
  | op :: ops, t => splitsRootLeaf t op || splitsRootLeafIn ops (op.run t).2

instance (t : BTree Disk) : ∀ op, Decidable (CallFits t op)
  | .insert _ _ => inferInstanceAs (Decidable (_ ∧ _))
  | .remove _ => inferInstanceAs (Decidable (AllFit _))

instance (t : BTree Disk) : ∀ op, Decidable (CallRegular t op)
  | .insert _ _ => inferInstanceAs (Decidable (_ ∧ _))
  | .remove _ => inferInstanceAs (Decidable (_ ∧ _))

section Paths

variable {t t' : BTree Disk} {v : View} {key : BTreeKey} {val : RID}

theorem path_of_takesInner (hs : Shows t v) {p : PageId} {leaf : BTreePage} {crumbs : List Crumb}
    (hfind : BTree.findLeaf key t = (.ok (p, leaf, crumbs), t')) (hin : takesInner t key = false) :
    t = t' ∧ EndsAt v key v.rootPid p leaf crumbs := by
  rw [takesInner, hfind] at hin
  refine path_of_findLeaf hs hfind fun c hc => ?_
  have := List.any_eq_false.mp hin c hc
  simpa using this

/-- An insertion that returned has found a leaf. -/
theorem path_of_insert (hs : Shows t v) (hroot : v.rootPid ≠ 0) {r : PageId}
    (h : BTree.insert key val t = (.ok r, t')) (hin : takesInner t key = false) :
    ∃ p leaf crumbs, Path v key v.rootPid p leaf crumbs := by
  rw [BTree.insert, Prog.bind_ok (createRoot_of_ne hs hroot)] at h
  obtain ⟨⟨p, leaf, crumbs⟩, t₁, hfind, h⟩ := Prog.bind_eq_ok h
  rcases path_of_takesInner hs hfind hin with ⟨rfl, hpath | ⟨rfl, -⟩⟩
  · exact ⟨p, leaf, crumbs, hpath⟩
  · cases h

/-- A removal that returned has found a leaf. -/
theorem path_of_remove (hs : Shows t v) {u : Unit} (h : BTree.remove key t = (.ok u, t'))
    (hin : takesInner t key = false) : ∃ p leaf crumbs, Path v key v.rootPid p leaf crumbs := by
  rw [BTree.remove] at h
  obtain ⟨⟨p, leaf, crumbs⟩, t₁, hfind, h⟩ := Prog.bind_eq_ok h
  rcases path_of_takesInner hs hfind hin with ⟨rfl, hpath | ⟨-, hnil⟩⟩
  · exact ⟨p, leaf, crumbs, hpath⟩
  · obtain ⟨vals, -, h⟩ := Prog.lift_bind_eq_ok h
    obtain ⟨keys, hkeys, -⟩ := Prog.lift_bind_eq_ok h
    rw [hnil, BTree.vecErase, if_neg (by simp)] at hkeys
    cases hkeys

end Paths

/-! ## One call -/

section Calls

variable {t t' : BTree Disk} {v : View} {op : IndexOp}

theorem CallFits.remove {key : BTreeKey} {u : Unit} (h : CallFits t (.remove key))
    (hrun : BTree.remove key t = (.ok u, t')) : AllFit t' := by
  rwa [CallFits, hrun] at h

/-- The metadata page has the root of the index. -/
structure Synced (v : View) : Prop where
  form : Form v
  tidy : v.Tidy
  sync : v.diskRoot = v.rootPid

/-- The root is a leaf, and the metadata page has none. -/
structure Unwritten (v : View) : Prop where
  leaf : v.IsLeafPage v.rootPid
  tidy : v.Tidy
  root : v.diskRoot = 0

theorem Synced.call (h : Synced v) (hs : Shows t v) (hop : CallRegular t op)
    (hrun : op.run t = (.ok (), t')) : ∃ v', Shows t' v' ∧ Synced v' := by
  cases op with
  | insert key val =>
    obtain ⟨⟨hkey, hfit⟩, hsafe⟩ := hop
    obtain ⟨r, t₁, hins, hret⟩ := Prog.bind_eq_ok hrun
    cases hret
    obtain ⟨hin, hover⟩ := hsafe (hs.rootPid ▸ h.form.root_ne)
    obtain ⟨p, leaf, crumbs, hpath⟩ := path_of_insert hs h.form.root_ne hins hin
    have hlen := (h.form.path hpath).2
    rcases insert_step hs h.tidy.packed hpath (by omega) hkey
      (noInnerOverflow_of hs hpath (by omega) hover) hfit with
      ⟨r', t₂, v', hr, hs', hstep⟩ | ⟨hfail, -⟩
    · rw [hins] at hr
      cases hr
      obtain ⟨hform, hsync⟩ := Form.insert hs h.tidy h.form h.sync hpath hstep
      exact ⟨v', hs', hform, (hstep.tidy h.tidy).1, hsync⟩
    · exact absurd hins hfail.ne_ok
  | remove key =>
    obtain ⟨hfit, hin⟩ := hop
    obtain ⟨p, leaf, crumbs, hpath⟩ := path_of_remove hs hrun hin
    obtain ⟨v', hs', hk⟩ := h.form.remove hs h.tidy hpath hrun (hfit.remove hrun)
    exact ⟨v', hs', hk.form, hk.tidy, hk.sync h.sync⟩

/-- A call on an index whose root is a leaf writes the root to disk exactly if it splits the leaf. -/
theorem Unwritten.call (h : Unwritten v) (hs : Shows t v) (hop : CallFits t op)
    (hrun : op.run t = (.ok (), t')) :
    ∃ v', Shows t' v' ∧ if splitsRootLeaf t op then Synced v' else Unwritten v' := by
  obtain ⟨h0, root, hn, hl⟩ := id h.leaf
  cases op with
  | insert key val =>
    obtain ⟨hkey, hfit⟩ := hop
    obtain ⟨r, t₁, hins, hret⟩ := Prog.bind_eq_ok hrun
    cases hret
    have hsplit : splitsRootLeaf t (.insert key val) ↔ Overfills v key root := by
      simp only [splitsRootLeaf, hs.rootPid, if_neg h0, hs.node _ h0, hn, Option.any_some, hl,
        hs.maxSize, Overfills]
      simp
    have hpath : Path v key v.rootPid v.rootPid root [] := .leaf h0 hn hl
    rcases insert_step hs h.tidy.packed hpath (by simp) hkey (fun _ => trivial) hfit with
      ⟨r', t₂, v', hr, hs', hstep⟩ | ⟨hfail, -⟩
    · rw [hins] at hr
      cases hr
      refine ⟨v', hs', ?_⟩
      have htidy := (hstep.tidy h.tidy).1
      rcases hstep.root_leaf hs.sound h.tidy h.leaf hpath with
        ⟨hno, hleaf, hroot, hdisk⟩ | ⟨hover, hform, hsync⟩
      · rw [if_neg (fun hyes => hno (hsplit.mp hyes))]
        exact ⟨hleaf, htidy, hdisk.trans h.root⟩
      · rw [if_pos (hsplit.mpr hover)]
        exact ⟨hform, htidy, hsync⟩
    · exact absurd hins hfail.ne_ok
  | remove key =>
    obtain ⟨-, t₁, hs₁, htail⟩ := remove_eq_ok hs (.leaf h0 hn hl) (by simp) hrun (hop.remove hrun)
    cases htail
    have hl' := BTreePage.dropRecord_isLeaf hl (BTree.keyIndex root.keys key)
    exact ⟨_, hs₁, h.leaf.put hl', h.tidy.put _ _, h.root⟩

/-- The first call on a fresh index makes the root, and only in memory unless it splits it. -/
theorem fresh_call {m : UInt8} (hs : Shows t (.fresh m)) (hop : CallRegular t op)
    (hrun : op.run t = (.ok (), t')) :
    ∃ v', Shows t' v' ∧ if splitsRootLeaf t op then Synced v' else Unwritten v' := by
  cases op with
  | insert key val =>
    obtain ⟨⟨hkey, hfit⟩, -⟩ := hop
    have hcount : (View.fresh m).diskCount.toNat + 1 < 65536 := by simp [View.fresh]
    have hid : (View.fresh m).newId ≠ 0 := View.newId_ne_zero hcount
    obtain ⟨t₁, hr₁, hs₁⟩ := createRoot_ok hs rfl hid
    have hins := insert_createRoot hr₁ hs₁ hid key val
    have hleaf : (View.fresh m).createRoot.node (View.fresh m).newId = some View.emptyLeaf := by
      simp [View.createRoot, View.addPage]
    have hunwritten : Unwritten (View.fresh m).createRoot :=
      ⟨⟨hid, _, hleaf, rfl⟩, (View.fresh_tidy m).createRoot hcount, rfl⟩
    have hrun₁ : (IndexOp.insert key val).run t₁ = (.ok (), t') := by
      obtain ⟨r, t₂, hins₂, hret⟩ := Prog.bind_eq_ok hrun
      exact (Prog.bind_ok (hins.symm.trans hins₂)).trans hret
    have hsplit : splitsRootLeaf t₁ (.insert key val) = splitsRootLeaf t (.insert key val) := by
      have hroot : t₁.rootPid = (View.fresh m).newId := hs₁.rootPid
      have hroot' : t.rootPid = 0 := hs.rootPid
      have hmax : t₁.maxSize = t.maxSize := hs₁.maxSize.trans hs.maxSize.symm
      simp [splitsRootLeaf, hroot, hroot', hid, hs₁.node _ hid, hleaf, View.emptyLeaf, BTreePage.isLeaf, hmax]
    have hfits : CallFits t₁ (.insert key val) := ⟨hkey, hins ▸ hfit⟩
    obtain ⟨v', hs', h'⟩ := hunwritten.call hs₁ hfits hrun₁
    rw [hsplit] at h'
    exact ⟨v', hs', h'⟩
  | remove key =>
    obtain ⟨-, hin⟩ := hop
    obtain ⟨p, leaf, crumbs, hpath⟩ := path_of_remove hs hrun hin
    exact absurd rfl hpath.start.1

end Calls

/-! ## Runs -/

section Runs

variable {t t₁ t' : BTree Disk} {v v₁ : View} {op : IndexOp} {ops : List IndexOp} {us : List Unit}

theorem Synced.run (h : Synced v) (hs : Shows t v) (hops : Prog.Meets IndexOp.run CallRegular ops t)
    (hrun : Prog.runAll IndexOp.run ops t = (.ok us, t')) : ∃ v', Shows t' v' ∧ Synced v' :=
  Prog.runAll_inv_of_ok (fun _ t => ∃ v, Shows t v ∧ Synced v)
    (fun _ _ _ _ _ ⟨_, hs, h⟩ hop hstep => h.call hs hop hstep) ⟨v, hs, h⟩ hops hrun

/-- A run goes on after a call that wrote the root or did not. -/
theorem run_after_call (hs₁ : Shows t₁ v₁) (hstep : op.run t = (.ok (), t₁))
    (h₁ : if splitsRootLeaf t op then Synced v₁ else Unwritten v₁)
    (hops : Prog.Meets IndexOp.run CallRegular ops t₁)
    (hrun : Prog.runAll IndexOp.run ops t₁ = (.ok us, t'))
    (hrest : Unwritten v₁ → ∃ v', Shows t' v' ∧ if splitsRootLeafIn ops t₁ then Synced v' else Unwritten v') :
    ∃ v', Shows t' v' ∧ if splitsRootLeafIn (op :: ops) t then Synced v' else Unwritten v' := by
  simp only [splitsRootLeafIn, hstep]
  cases hsplit : splitsRootLeaf t op with
  | true =>
    rw [if_pos hsplit] at h₁
    simpa using h₁.run hs₁ hops hrun
  | false =>
    rw [if_neg (by simp [hsplit])] at h₁
    simpa using hrest h₁

theorem Unwritten.run (h : Unwritten v) (hs : Shows t v) (hops : Prog.Meets IndexOp.run CallRegular ops t)
    (hrun : Prog.runAll IndexOp.run ops t = (.ok us, t')) :
    ∃ v', Shows t' v' ∧ if splitsRootLeafIn ops t then Synced v' else Unwritten v' := by
  induction ops generalizing t v us with
  | nil =>
    cases hrun
    exact ⟨v, hs, by simpa [splitsRootLeafIn] using h⟩
  | cons op ops ih =>
    obtain ⟨u, us', t₁, hstep, hrest, -⟩ := Prog.runAll_cons_eq_ok hrun
    obtain ⟨v₁, hs₁, h₁⟩ := h.call hs hops.1.1 hstep
    exact run_after_call hs₁ hstep h₁ (hops.tail hstep) hrest fun h₁ => ih h₁ hs₁ (hops.tail hstep) hrest

/-- What a second object reads is what the metadata page holds. -/
theorem reopens_iff (hs : Shows t v) (htidy : v.Tidy) (junk : BTree Disk) :
    Reopens junk t ↔ v.diskRoot = v.rootPid := by
  obtain ⟨data, hd, hmeta⟩ := hs.meta_
  have hread := Shows.deserialize_eq (t := { junk with bpm := t.bpm }) hd hmeta
  constructor
  · rintro ⟨t', hrun, -, hroot, -⟩
    rw [hread] at hrun
    cases hrun
    exact hroot.trans hs.rootPid
  · intro hroot
    exact ⟨_, hread, rfl, hroot.trans hs.rootPid.symm, (htidy.count.symm.trans hs.nodeCount.symm),
      htidy.max.trans hs.maxSize.symm⟩

end Runs

/-- **Opening the index again.** After a run of regular calls on a fresh index, a second object that
opens the file obtains the metadata of the running one exactly if there was no call, or some call has
split the root. -/
theorem index_run_reopens_iff (m : UInt8) (junk junk' : BTree Disk) {ops : List IndexOp} {us : List Unit}
    {t : BTree Disk} (hops : Prog.Meets IndexOp.run CallRegular ops (BTree.opened m junk))
    (hrun : Prog.runAll IndexOp.run ops (BTree.opened m junk) = (.ok us, t)) :
    Reopens junk' t ↔ ops = [] ∨ splitsRootLeafIn ops (BTree.opened m junk) = true := by
  have hfresh : Shows (BTree.opened m junk) (.fresh m) := Shows.opened_fresh m junk
  cases ops with
  | nil =>
    cases hrun
    rw [reopens_iff hfresh (View.fresh_tidy m)]
    exact ⟨fun _ => .inl rfl, fun _ => rfl⟩
  | cons op ops =>
    obtain ⟨u, us', t₁, hstep, hrest, -⟩ := Prog.runAll_cons_eq_ok hrun
    have hops' := hops.tail hstep
    obtain ⟨v₁, hs₁, h₁⟩ := fresh_call hfresh hops.1 hstep
    obtain ⟨v, hs, h⟩ := run_after_call hs₁ hstep h₁ hops' hrest fun h₁ => h₁.run hs₁ hops' hrest
    split at h
    · next hsplit =>
      rw [reopens_iff hs h.tidy]
      exact ⟨fun _ => .inr hsplit, fun _ => h.sync⟩
    · next hsplit =>
      rw [reopens_iff hs h.tidy]
      have hne : v.diskRoot ≠ v.rootPid := by
        rw [h.root]
        exact Ne.symm h.leaf.1
      constructor
      · intro hroot
        exact absurd hroot hne
      · rintro (hnil | hyes)
        · cases hnil
        · exact absurd hyes hsplit

/-- Insertions until the root is split, and a removal that makes a leaf the root again. -/
def reopenOps : List IndexOp :=
  [.insert (byteKey 65) ⟨1, 0⟩, .insert (byteKey 66) ⟨2, 0⟩, .insert (byteKey 67) ⟨3, 0⟩, .remove (byteKey 67)]

theorem index_run_reopens_split : ∃ us t,
    Prog.runAll IndexOp.run reopenOps (BTree.opened 2 .zeroMemory) = (.ok us, t) ∧
      Reopens .zeroMemory t := by
  obtain ⟨us, hrun⟩ := Prog.eq_ok_of_isOk (m := Prog.runAll IndexOp.run reopenOps)
    (s := BTree.opened 2 .zeroMemory) (by decide +kernel)
  exact ⟨us, _, hrun, (index_run_reopens_iff 2 .zeroMemory .zeroMemory (by decide +kernel) hrun).mpr
    (.inr (by decide +kernel))⟩

set_option maxRecDepth 4096 in
/-- One insertion: a second object finds no root. -/
theorem index_run_reopens_fails : ∃ us t,
    Prog.runAll IndexOp.run [.insert (byteKey 65) ⟨1, 0⟩] (BTree.opened 2 .zeroMemory) = (.ok us, t) ∧
      AllFit t ∧ ¬ Reopens .zeroMemory t := by
  obtain ⟨us, hrun⟩ := Prog.eq_ok_of_isOk
    (m := Prog.runAll IndexOp.run [.insert (byteKey 65) ⟨1, 0⟩]) (s := BTree.opened 2 .zeroMemory)
    (by decide +kernel)
  refine ⟨us, _, hrun, by decide +kernel, ?_⟩
  rintro ⟨t', hread, -, hroot, -⟩
  have hne : (BTree.deserialize { BTree.zeroMemory with
      bpm := (Prog.runAll IndexOp.run [.insert (byteKey 65) ⟨1, 0⟩] (BTree.opened 2 .zeroMemory)).2.bpm }).2.rootPid ≠
      (Prog.runAll IndexOp.run [.insert (byteKey 65) ⟨1, 0⟩] (BTree.opened 2 .zeroMemory)).2.rootPid := by
    decide +kernel
  rw [hread] at hne
  exact hne hroot

end SomeDB
