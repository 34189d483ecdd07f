import SomeDB.Index.NodeInsert
import Mathlib.Algebra.Order.BigOperators.Group.List
import Mathlib.Algebra.Order.Ring.Nat

/-!
# The size of a node

Whether a node fits in a page depends on its kind and on the lengths of its keys (`fitsPage_iff`), not on their
order. So some of its keys take no more room than all of them, and a key more takes the same room wherever it is put.
-/

namespace SomeDB

/-- The bytes of a page that a node with these keys takes. -/
def nodeSize (isLeaf : Bool) (keys : List BTreeKey) : Nat :=
  26 + (keys.map fun k => (if isLeaf then 13 else 9) + k.length).sum

section Size

variable {b : Bool} {keys : List BTreeKey}

theorem nodeSize_cons (b : Bool) (k : BTreeKey) (keys : List BTreeKey) :
    nodeSize b (k :: keys) = (if b then 13 else 9) + k.length + nodeSize b keys := by
  rw [nodeSize, nodeSize, List.map_cons, List.sum_cons]
  omega

theorem fitsPage_iff (n : BTreePage) : n.FitsPage ↔ nodeSize n.isLeaf n.keys ≤ 4096 := by
  have hsum : ∀ keys : List BTreeKey, 26 + 4 * keys.length + (keys.map fun k => 1 + k.length + n.valSize).sum =
      nodeSize n.isLeaf keys := by
    intro keys
    induction keys with
    | nil => rfl
    | cons k keys ih =>
      rw [nodeSize_cons, ← ih, List.map_cons, List.sum_cons, List.length_cons, BTreePage.valSize]
      split <;> omega
  rw [BTreePage.FitsPage, BTreePage.pairsSize, hsum]

theorem nodeSize_sublist {keys' : List BTreeKey} (h : keys'.Sublist keys) : nodeSize b keys' ≤ nodeSize b keys :=
  Nat.add_le_add_left (List.Sublist.sum_le_sum (h.map _) (by simp)) 26

theorem nodeSize_putAt (i : Nat) (k : BTreeKey) : nodeSize b (putAt keys i k) = nodeSize b (k :: keys) := by
  have hperm : (putAt keys i k).Perm (k :: keys) := by
    have hmid : (keys.take i ++ k :: keys.drop i).Perm (k :: (keys.take i ++ keys.drop i)) := List.perm_middle
    rwa [List.take_append_drop] at hmid
  rw [nodeSize, nodeSize, (hperm.map _).sum_nat]

/-- One key always fits. -/
theorem nodeSize_singleton (k : BTreeKey) : nodeSize b [k] ≤ 4096 := by
  have hlen := k.length_le
  rw [nodeSize_cons, nodeSize, List.map_nil, List.sum_nil, BTreeKey.length]
  split <;> omega

theorem nodeSize_nil (b : Bool) : nodeSize b [] = 26 := rfl

end Size

namespace BTreePage

variable {n m : BTreePage}

theorem fitsPage_of_nil (h : n.keys = []) : n.FitsPage := by
  rw [fitsPage_iff, h, nodeSize_nil]
  omega

/-- A node of the same kind with some of the keys. -/
theorem FitsPage.sublist (h : n.FitsPage) (hkind : m.isLeaf = n.isLeaf) (hkeys : m.keys.Sublist n.keys) :
    m.FitsPage := by
  rw [fitsPage_iff] at h ⊢
  rw [hkind]
  exact Nat.le_trans (nodeSize_sublist hkeys) h

end BTreePage

end SomeDB
