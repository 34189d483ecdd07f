import Mathlib.Data.List.Nodup
import SomeDB.Utils.CircularList

/-!
# Removal from the circular list (`circular_list.h`, `circular_list.c`)

The loop of `circular_list_remove` is to walk on until a node has the value, but it looks at the value of the first node
in each turn (`circularListRemove_eq_loop`). A value is removed if the first or the second node has it
(`removesValue_iff`). Otherwise the second node goes, whatever its value is, or a null pointer is followed.
-/

namespace SomeDB

open Lib

/-- The loop of `circular_list_remove`: the nodes up to `prev`, and those from `curr` on. -/
def removeLoop (head : ListNode) (value : CString) : List ListNode → List ListNode → List ListNode × List ListNode
  | passed, [] => (passed, [])
  | passed, curr :: rest =>
    if head.value = value then removeLoop head value (passed ++ [curr]) rest else (passed, curr :: rest)

/-- `circular_list_remove` with its loop. -/
def circularListRemoveLoop (value : CString) : ListM (Option Nat) := fun cl =>
  match cl.nodes with
  | [] => (.ok none, cl)
  | head :: rest =>
    if head.value = value then (.ok (some head.id), { cl with nodes := rest, size := cl.size - 1 })
    else
      match removeLoop head value [head] rest with
      | (_, []) => (.error .nullPointer, cl)
      | (passed, curr :: rest) =>
        (.ok (some curr.id), { cl with nodes := passed ++ rest, size := cl.size - 1 })

/-- The loop is never entered. -/
theorem circularListRemove_eq_loop (value : CString) : circularListRemove value = circularListRemoveLoop value := by
  funext cl
  unfold circularListRemove circularListRemoveLoop
  rcases cl.nodes with _ | ⟨head, rest⟩
  · rfl
  · simp only
    by_cases hhead : head.value = value
    · rw [if_pos hhead, if_pos hhead]
    · rw [if_neg hhead, if_neg hhead]
      cases rest with
      | nil => rfl
      | cons curr rest =>
        unfold removeLoop
        rw [if_neg hhead]
        rfl

/-- If the value occurs, the call returns true and leaves the list without it; otherwise it returns false and leaves the
list as it is. -/
def RemovesValue (cl : CircularList) (value : CString) : Prop :=
  (value ∈ cl.nodes.map (·.value) → ∃ id cl', circularListRemove value cl = (.ok (some id), cl') ∧
    cl'.nodes = cl.nodes.filter (fun n => n.value ≠ value) ∧ cl'.size = cl.size - 1) ∧
  (value ∉ cl.nodes.map (·.value) → circularListRemove value cl = (.ok none, cl))

section

variable {cl : CircularList} {value : CString} {head curr : ListNode} {rest : List ListNode}

/-- The other nodes of a list without duplicate values. -/
theorem filter_eq_self_of_not_mem {nodes : List ListNode} (h : value ∉ nodes.map (·.value)) :
    nodes.filter (fun n => n.value ≠ value) = nodes := by
  rw [List.filter_eq_self]
  intro n hn
  simp only [ne_eq, decide_eq_true_eq]
  rintro rfl
  exact h (List.mem_map_of_mem hn)

theorem circularListRemove_first (hnodes : cl.nodes = head :: rest) (hhead : head.value = value) :
    circularListRemove value cl = (.ok (some head.id), { cl with nodes := rest, size := cl.size - 1 }) := by
  unfold circularListRemove
  rw [hnodes]
  exact if_pos hhead

/-- Unless the first node has the value, the second one is taken. -/
theorem circularListRemove_second (hnodes : cl.nodes = head :: curr :: rest) (hhead : ¬ head.value = value) :
    circularListRemove value cl = (.ok (some curr.id), { cl with nodes := head :: rest, size := cl.size - 1 }) := by
  unfold circularListRemove
  rw [hnodes]
  exact if_neg hhead

theorem circularListRemove_single (hnodes : cl.nodes = [head]) (hhead : ¬ head.value = value) :
    circularListRemove value cl = (.error .nullPointer, cl) := by
  unfold circularListRemove
  rw [hnodes]
  exact if_neg hhead

/-- A value is removed from a list without duplicates just if the list is empty or one of its first two nodes has the
value. -/
theorem removesValue_iff (hnodup : (cl.nodes.map (·.value)).Nodup) (value : CString) :
    RemovesValue cl value ↔ cl.nodes = [] ∨ value ∈ (cl.nodes.take 2).map (·.value) := by
  unfold RemovesValue
  rcases hnodes : cl.nodes with _ | ⟨head, rest⟩
  · have hrun : circularListRemove value cl = (.ok none, cl) := by
      unfold circularListRemove
      rw [hnodes]
    exact iff_of_true ⟨fun h => absurd h List.not_mem_nil, fun _ => hrun⟩ (.inl rfl)
  rw [hnodes, List.map_cons, List.nodup_cons] at hnodup
  by_cases hhead : head.value = value
  · -- the first node has the value
    have hrest : value ∉ rest.map (·.value) := hhead ▸ hnodup.1
    have hrun := circularListRemove_first hnodes hhead
    refine iff_of_true ⟨fun _ => ⟨_, _, hrun, ?_, rfl⟩, fun h => absurd (by simp [hhead]) h⟩ (.inr (by simp [hhead]))
    rw [List.filter_cons_of_neg (by simp [hhead]), filter_eq_self_of_not_mem hrest]
  have hne : ¬ value = head.value := fun h => hhead h.symm
  rcases rest with _ | ⟨curr, rest⟩
  · have hrun := circularListRemove_single hnodes hhead
    refine iff_of_false ?_ (by simpa using hne)
    rintro ⟨-, habsent⟩
    have hkept := habsent (by simpa using hne)
    rw [hrun] at hkept
    cases hkept
  have hrun := circularListRemove_second hnodes hhead
  obtain ⟨-, hnodup⟩ := hnodup
  rw [List.map_cons, List.nodup_cons] at hnodup
  by_cases hcurr : curr.value = value
  · -- the second node has it
    have hrest : value ∉ rest.map (·.value) := hcurr ▸ hnodup.1
    refine iff_of_true ⟨fun _ => ⟨_, _, hrun, ?_, rfl⟩, fun h => absurd (by simp [hcurr]) h⟩ (.inr (by simp [hcurr]))
    rw [List.filter_cons_of_pos (by simpa using hhead), List.filter_cons_of_neg (by simp [hcurr]),
      filter_eq_self_of_not_mem hrest]
  · -- neither has it, and the second node is lost
    refine iff_of_false ?_ (by simp [hne, Ne.symm hcurr])
    rintro ⟨hpresent, habsent⟩
    by_cases hvalue : value ∈ (head :: curr :: rest).map (·.value)
    · obtain ⟨id, cl', hrun', hleft, -⟩ := hpresent hvalue
      cases hrun.symm.trans hrun'
      rw [List.filter_cons_of_pos (by simpa using hhead), List.filter_cons_of_pos (by simpa using hcurr),
        List.cons.injEq] at hleft
      refine hnodup.1 (List.mem_map_of_mem ?_)
      rw [hleft.2]
      exact List.mem_cons_self ..
    · have hkept := habsent hvalue
      rw [hrun] at hkept
      cases hkept

end

/-- Three nodes. -/
def threeNodes : CircularList := ⟨3, 3, [⟨2, ['c']⟩, ⟨1, ['b']⟩, ⟨0, ['a']⟩], 3⟩

theorem removesValue_threeNodes : RemovesValue threeNodes ['b'] :=
  (removesValue_iff (by decide) ['b']).mpr (by decide)

/-- The third value and one that is absent: the second node goes. -/
theorem removesValue_fails :
    (circularListRemove ['a'] threeNodes).2.nodes = [⟨2, ['c']⟩, ⟨0, ['a']⟩] ∧ ¬ RemovesValue threeNodes ['a'] ∧
      (circularListRemove ['d'] threeNodes).2.nodes = [⟨2, ['c']⟩, ⟨0, ['a']⟩] ∧
      ¬ RemovesValue threeNodes ['d'] := by
  refine ⟨by decide, ?_, by decide, ?_⟩
  · rintro ⟨hpresent, -⟩
    obtain ⟨id, cl', hrun, hleft, -⟩ := hpresent (by decide)
    cases hrun
    exact absurd hleft (by decide)
  · rintro ⟨-, habsent⟩
    have hrun : circularListRemove ['d'] threeNodes = (.ok none, threeNodes) := habsent (by decide)
    have hnodes := congrArg (fun p => p.2.nodes) hrun
    exact absurd hnodes (by decide)

end SomeDB
