import SomeDB.Index.PageCodec
import SomeDB.Index.BTreeIndex

/-!
# The nodes that were serialized

`AllFit t`: every node that was serialized so far fits in a page. Every function of the index only
adds to the list of serialized nodes (`Logged`), also where it ends in a fault. So if the nodes that
are serialized in the end all fit, then each of them did when it was serialized (`AllFit.head`).
-/

namespace SomeDB

open Lib

/-- Every node that was serialized fits in a page. -/
def AllFit (t : BTree Disk) : Prop := ∀ n ∈ t.serialized, n.FitsPage

instance (t : BTree Disk) : Decidable (AllFit t) := inferInstanceAs (Decidable (∀ n ∈ _, _))

/-- The nodes that were serialized in `t` were so in `t'`. -/
def Extends (t t' : BTree Disk) : Prop := t.serialized <:+ t'.serialized

theorem Extends.refl (t : BTree Disk) : Extends t t := List.suffix_rfl

theorem Extends.trans {t₁ t₂ t₃ : BTree Disk} (h₁ : Extends t₁ t₂) (h₂ : Extends t₂ t₃) :
    Extends t₁ t₃ :=
  List.IsSuffix.trans h₁ h₂

theorem Extends.allFit {t t' : BTree Disk} (h : Extends t t') (hfit : AllFit t') : AllFit t :=
  fun n hn => hfit n (h.subset hn)

/-- The program only adds to the list of serialized nodes. -/
def Logged {α : Type} (p : TreeM Disk α) : Prop := Prog.Grows Extends p

namespace Logged

variable {α β : Type}

theorem pure (a : α) : Logged (Pure.pure a) := Prog.Grows.pure Extends.refl a

theorem fault (e : Fault) : Logged (Prog.fault e : TreeM Disk α) :=
  Prog.Grows.fault Extends.refl e

theorem lift (x : Except Fault α) : Logged (Prog.lift x : TreeM Disk α) :=
  Prog.Grows.lift Extends.refl x

theorem get : Logged (Prog.get : TreeM Disk (BTree Disk)) := Prog.Grows.get Extends.refl

theorem modify {f : BTree Disk → BTree Disk} (h : ∀ t, Extends t (f t)) : Logged (Prog.modify f) :=
  Prog.Grows.modify h

theorem bind {m : TreeM Disk α} {f : α → TreeM Disk β} (hm : Logged m) (hf : ∀ a, Logged (f a)) :
    Logged (m >>= f) :=
  Prog.Grows.bind (r := Extends) (fun _ _ _ => Extends.trans) hm hf

theorem assert (c : Prop) [Decidable c] : Logged (SomeDB.assert c : TreeM Disk Unit) := by
  unfold SomeDB.assert
  split
  · exact pure ()
  · exact fault _

theorem onBpm (p : Prog Fault Disk α) : Logged (BTree.onBpm p) := fun _ => List.suffix_rfl

theorem alloc : Logged (BTree.alloc : TreeM Disk Uninit) := fun _ => List.suffix_rfl

theorem newNode (isLeaf : Bool) : Logged (BTree.newNode isLeaf : TreeM Disk BTreePage) :=
  bind alloc fun _ => pure _

theorem serializeNode (n : BTreePage) : Logged (BTree.serializeNode n : TreeM Disk Page) :=
  bind alloc fun _ => bind (modify fun _ => List.suffix_cons _ _) fun _ => lift _

theorem flushNode (pid : PageId) (n : BTreePage) : Logged (BTree.flushNode pid n : TreeM Disk Unit) :=
  bind (serializeNode n) fun _ => onBpm _

theorem flushMeta : Logged (BTree.flushMeta : TreeM Disk Unit) :=
  bind alloc fun _ => bind get fun _ => onBpm _

theorem fetchNode (pid : PageId) : Logged (BTree.fetchNode pid : TreeM Disk (PageId × BTreePage)) :=
  bind (onBpm _) fun _ => bind (lift _) fun _ => pure _

theorem getBtreePage (pid : PageId) : Logged (BTree.getBtreePage pid : TreeM Disk BTreePage) :=
  bind (fetchNode pid) fun _ => pure _

theorem getPrevBreadcrumbPid (top : Option Crumb) :
    Logged (BTree.getPrevBreadcrumbPid top : TreeM Disk PageId) := by
  cases top with
  | none => exact pure _
  | some c => exact bind (onBpm _) fun _ => pure _

theorem findLeafScan (key : BTreeKey) (n i : Nat) (curr : PageId) (temp : BTreePage)
    (crumbs : List Crumb) : Logged (BTree.findLeafScan key n i curr temp crumbs) := by
  induction n generalizing i curr temp crumbs with
  | zero => exact fault _
  | succ n ih =>
    rw [BTree.findLeafScan]
    split
    · refine bind (lift _) fun _ => bind (lift _) fun _ => ?_
      split
      · exact bind (lift _) fun _ => bind (lift _) fun _ => bind (fetchNode _) fun _ => ih _ _ _ _
      · exact ih _ _ _ _
    · exact pure _

theorem findLeafLoop (key : BTreeKey) (n : Nat) (curr : PageId) (temp : BTreePage)
    (crumbs : List Crumb) : Logged (BTree.findLeafLoop key n curr temp crumbs) := by
  induction n generalizing curr temp crumbs with
  | zero => exact fault _
  | succ n ih =>
    rw [BTree.findLeafLoop]
    split
    · exact pure _
    · refine bind (lift _) fun _ => ?_
      split
      · exact bind (lift _) fun _ => bind (lift _) fun _ => bind (fetchNode _) fun _ => ih _ _ _
      · exact bind (findLeafScan _ _ _ _ _ _) fun _ => bind (fetchNode _) fun _ => ih _ _ _

theorem findLeaf (key : BTreeKey) :
    Logged (BTree.findLeaf key : TreeM Disk (PageId × BTreePage × List Crumb)) :=
  bind get fun _ => bind (fetchNode _) fun _ => findLeafLoop _ _ _ _ _

theorem splitRootNode (isLeaf : Bool) (n : BTreePage) :
    Logged (BTree.splitRootNode isLeaf n : TreeM Disk BTreePage) :=
  bind get fun _ => bind (lift _) fun _ => bind (onBpm _) fun _ => bind (onBpm _) fun _ =>
  bind (newNode _) fun _ => bind (newNode _) fun _ => bind (modify fun _ => List.suffix_rfl) fun _ =>
  bind (lift _) fun _ => bind (modify fun _ => List.suffix_rfl) fun _ => bind (assert _) fun _ =>
  bind flushMeta fun _ => bind (flushNode _ _) fun _ => bind (flushNode _ _) fun _ =>
  bind (flushNode _ _) fun _ => pure _

theorem splitIntoParent (isLeaf : Bool) (n : BTreePage) (pid : PageId) (top : Option Crumb) :
    Logged (BTree.splitIntoParent isLeaf n pid top : TreeM Disk (BTreePage × BTreePage)) :=
  bind (lift _) fun _ => bind (newNode _) fun _ => bind (onBpm _) fun _ =>
  bind (modify fun _ => List.suffix_rfl) fun _ => bind (lift _) fun _ =>
  bind (getPrevBreadcrumbPid _) fun _ => bind (getBtreePage _) fun _ => bind (lift _) fun _ =>
  bind (lift _) fun _ => bind (assert _) fun _ => bind (flushNode _ _) fun _ =>
  bind (flushNode _ _) fun _ => bind (flushNode _ _) fun _ => pure _

theorem splitRootPage : Logged (BTree.splitRootPage : TreeM Disk Unit) :=
  bind get fun _ => bind (getBtreePage _) fun _ => bind (splitRootNode _ _) fun _ => pure _

/-- A conditional statement. -/
theorem when {c : Prop} [Decidable c] {p : TreeM Disk Unit} {k : TreeM Disk α} (hp : Logged p)
    (hk : Logged k) : Logged (do
      if c then p
      k) := by
  split
  · exact bind hp fun _ => hk
  · exact hk

theorem splitNonRootNode (isLeaf : Bool) (n : BTreePage) (pid : PageId) (crumbs : List Crumb) :
    Logged (BTree.splitNonRootNode isLeaf n pid crumbs : TreeM Disk BTreePage) := by
  fun_induction BTree.splitNonRootNode (σ := Disk) isLeaf n pid crumbs with
  | case1 =>
    exact bind (splitIntoParent _ _ _ _) fun _ => bind get fun _ => when splitRootPage (pure _)
  | case2 =>
    exact bind (splitIntoParent _ _ _ _) fun _ => bind get fun _ => when splitRootPage (pure _)
  | case3 _ _ _ _ _ _ ih =>
    refine bind (splitIntoParent _ _ _ _) fun _ => bind get fun _ => ?_
    split
    · exact bind (getPrevBreadcrumbPid _) fun _ => bind (getBtreePage _) fun _ =>
        bind (ih _ _) fun _ => pure _
    · exact pure _

theorem createRoot : Logged (BTree.createRoot : TreeM Disk Unit) := by
  rw [BTree.createRoot]
  refine bind get fun _ => ?_
  split
  · exact bind (onBpm _) fun _ => bind (modify fun _ => List.suffix_rfl) fun _ =>
      bind (assert _) fun _ => modify fun _ => List.suffix_rfl
  · exact pure _

theorem splitFullLeaf (leaf : BTreePage) (pid : PageId) (crumbs : List Crumb) :
    Logged (BTree.splitFullLeaf leaf pid crumbs : TreeM Disk BTreePage) := by
  rw [BTree.splitFullLeaf]
  refine bind get fun _ => ?_
  split
  · refine bind (assert _) fun _ => ?_
    split
    · exact splitRootNode _ _
    · exact splitNonRootNode _ _ _ _
  · exact pure _

theorem insert (key : BTreeKey) (val : RID) : Logged (BTree.insert key val : TreeM Disk PageId) := by
  rw [BTree.insert]
  refine bind createRoot fun _ => bind (findLeaf _) fun _ => bind (assert _) fun _ => ?_
  split
  · exact pure _
  · exact bind (lift _) fun _ => bind (splitFullLeaf _ _ _) fun _ => bind (flushNode _ _) fun _ =>
      pure _

theorem mergeLeafNodes (loc : BTree.LocalInfo) (idx : Int) (isLeftSib : Bool) :
    Logged (BTree.mergeLeafNodes loc idx isLeftSib : TreeM Disk BTree.LocalInfo) := by
  unfold BTree.mergeLeafNodes
  refine bind (lift _) fun _ => bind (lift _) fun _ => bind (lift _) fun _ => bind get fun _ => ?_
  split
  · exact pure _
  · split
    · exact bind (flushNode _ _) fun _ => bind (lift _) fun _ => pure _
    · split
      · exact bind (flushNode _ _) fun _ => pure _
      · exact bind (lift _) fun _ => bind (flushNode _ _) fun _ => pure _

theorem mergeInternalNodes (loc : BTree.LocalInfo) (idx : Int) (isLeftSib : Bool) :
    Logged (BTree.mergeInternalNodes loc idx isLeftSib : TreeM Disk (BTree.LocalInfo × Bool)) := by
  unfold BTree.mergeInternalNodes
  refine bind get fun _ => ?_
  split
  · exact pure _
  · refine bind (lift _) fun _ => bind (lift _) fun _ => ?_
    split
    · exact bind (lift _) fun _ => bind (flushNode _ _) fun _ => pure _
    · exact bind (lift _) fun _ => bind (lift _) fun _ => bind (flushNode _ _) fun _ => pure _

theorem mergeNodes (loc : BTree.LocalInfo) (crumb : Crumb) (isLeftSib : Bool) :
    Logged (BTree.mergeNodes loc crumb isLeftSib : TreeM Disk BTree.LocalInfo) := by
  unfold BTree.mergeNodes
  split
  · exact mergeLeafNodes _ _ _
  · exact bind (mergeInternalNodes _ _ _) fun _ => when (flushNode _ _) (pure _)

theorem merge (p : PageId) (crumbs : List Crumb) : Logged (BTree.merge p crumbs : TreeM Disk Unit) := by
  induction crumbs generalizing p with
  | nil => exact fault _
  | cons c rest ih =>
    rw [BTree.merge]
    refine bind (getBtreePage _) fun _ => bind (lift _) fun _ => bind (getBtreePage _) fun _ =>
      bind (lift _) fun _ => bind (getBtreePage _) fun _ => bind (mergeNodes _ _ _) fun _ =>
      bind (flushNode _ _) fun _ => ?_
    split
    · split
      · exact bind (modify fun _ => List.suffix_rfl) fun _ => flushMeta
      · exact pure _
    · exact ih _

theorem remove (key : BTreeKey) : Logged (BTree.remove key : TreeM Disk Unit) := by
  rw [BTree.remove]
  refine bind (findLeaf _) fun _ => bind (lift _) fun _ => bind (lift _) fun _ => bind (lift _) fun _ =>
    bind (flushNode _ _) fun _ => ?_
  split
  · exact pure _
  · exact merge _ _

end Logged

/-- The first part of a program whose nodes all fit. -/
theorem AllFit.left {α β : Type} {m : TreeM Disk α} {f : α → TreeM Disk β} {t : BTree Disk}
    (hf : ∀ a, Logged (f a)) (h : AllFit ((m >>= f) t).2) : AllFit (m t).2 := by
  rcases hm : m t with ⟨_ | a, t'⟩
  · rwa [Prog.bind_error hm] at h
  · rw [Prog.bind_ok hm] at h
    exact (hf a t').allFit h

/-- The node that a program serializes first. -/
theorem AllFit.head {α : Type} {pid : PageId} {n : BTreePage} {f : Unit → TreeM Disk α}
    {t : BTree Disk} (hf : Logged (f ())) (h : AllFit ((BTree.flushNode pid n >>= f) t).2) :
    n.FitsPage := by
  have hn : AllFit (BTree.flushNode pid n t).2 := h.left fun _ => hf
  have hs : AllFit (BTree.serializeNode n t).2 := AllFit.left (fun _ => Logged.onBpm _) hn
  exact hs n (List.mem_cons_self ..)

theorem BTree.flushNode_serialized (p : PageId) (n : BTreePage) (t : BTree Disk) :
    (flushNode p n t).2.serialized = n :: t.serialized := by
  rw [flushNode]
  rcases hs : serializeNode n t with ⟨e | data, t'⟩
  · rw [Prog.bind_error hs]
    exact congrArg (fun r => BTree.serialized (Prod.snd r)) hs.symm
  · rw [Prog.bind_ok hs]
    exact congrArg (fun r => BTree.serialized (Prod.snd r)) hs.symm

end SomeDB
