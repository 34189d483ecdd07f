import SomeDB.Utils.CString

/-!
# The circular list (`circular_list.c`)

A node is known by a number that no other node gets, also not after it was freed: a pointer to a freed
node points to nothing. `circular_list_remove` compares only the first node with the value and takes the
second one if it is not the first.
-/

namespace SomeDB

open Lib

/-- `CircularListNode` with a string as its value. -/
structure ListNode where
  id : Nat
  value : CString
  deriving DecidableEq, Repr

/-- `CircularList`, with the nodes from `head` on. -/
structure CircularList where
  capacity : Nat
  size : Nat
  nodes : List ListNode
  nextId : Nat

abbrev ListM (α : Type) := Prog Fault CircularList α

/-- `circular_list_init`. -/
def circularListInit (capacity : Nat) : CircularList := ⟨capacity, 0, [], 0⟩

/-- `circular_list_insert`. -/
def circularListInsert (value : CString) : ListM (Option Nat) := fun cl =>
  if cl.size = cl.capacity then (.ok none, cl)
  else (.ok (some cl.nextId), { cl with
    size := cl.size + 1
    nodes := ⟨cl.nextId, value⟩ :: cl.nodes
    nextId := cl.nextId + 1 })

/-- The nodes from the node `id` on. -/
def nodesFrom (id : Nat) (nodes : List ListNode) : List ListNode := nodes.dropWhile fun n => n.id ≠ id

/-- `circular_list_next` of the node `curr`. -/
def circularListNext (curr : Nat) : ListM (Option Nat) := fun cl =>
  if cl.size = 0 then (.ok none, cl)
  else
    match nodesFrom curr cl.nodes with
    | [] => (.error .freed, cl)
    | [_] => (.ok (cl.nodes.head?.map (·.id)), cl)
    | _ :: next :: _ => (.ok (some next.id), cl)

/-- `circular_list_remove`: the node that was freed with its value, if any. -/
def circularListRemove (value : CString) : ListM (Option Nat) := fun cl =>
  match cl.nodes with
  | [] => (.ok none, cl)
  | head :: rest =>
    if head.value = value then (.ok (some head.id), { cl with nodes := rest, size := cl.size - 1 })
    else
      match rest with
      | [] => (.error .nullPointer, cl)
      | curr :: rest => (.ok (some curr.id), { cl with nodes := head :: rest, size := cl.size - 1 })

/-! ## The nodes in front of a node and behind it -/

section

variable {cl : CircularList} {a b : List ListNode} {n : ListNode}

theorem id_ne_of_split (hids : ((a ++ n :: b).map (·.id)).Nodup) {m : ListNode} (hm : m ∈ a) : ¬ m.id = n.id := by
  rw [List.map_append, List.map_cons, List.nodup_append] at hids
  exact hids.2.2 m.id (List.mem_map_of_mem hm) n.id (List.mem_cons_self ..)

theorem find_of_split (hids : ((a ++ n :: b).map (·.id)).Nodup) :
    (a ++ n :: b).find? (fun m => m.id = n.id) = some n := by
  rw [List.find?_append, List.find?_eq_none.mpr, Option.none_or, List.find?_cons_of_pos (by simp)]
  intro m hm
  simp [id_ne_of_split hids hm]

theorem nodesFrom_of_split (hids : ((a ++ n :: b).map (·.id)).Nodup) : nodesFrom n.id (a ++ n :: b) = n :: b := by
  unfold nodesFrom
  rw [List.dropWhile_append_of_pos, List.dropWhile_cons_of_neg (by simp)]
  intro m hm
  simp [id_ne_of_split hids hm]

/-- The node behind `n` in the circle. -/
theorem circularListNext_of_split (hnodes : cl.nodes = a ++ n :: b) (hids : (cl.nodes.map (·.id)).Nodup)
    (hsize : cl.size ≠ 0) : circularListNext n.id cl = (.ok ((b ++ a ++ [n]).head?.map (·.id)), cl) := by
  unfold circularListNext
  rw [hnodes] at hids
  rw [if_neg hsize, hnodes, nodesFrom_of_split hids]
  cases b with
  | nil => cases a <;> rfl
  | cons m b => rfl

end

end SomeDB
