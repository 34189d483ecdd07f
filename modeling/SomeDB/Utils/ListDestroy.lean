import SomeDB.Lib.Ledger
import SomeDB.Utils.ListRemove

/-!
# What a list frees in its life (`circular_list.h`, `circular_list.c`)

`circular_list_destroy` walks along the list and removes the value of each node. The node is the first one whenever its
value is removed, so that the comparison with the first node finds it. Over the life of a list each node is freed once,
by a removal or in the end, and none is left (`list_life_frees`). The list itself is not freed.
-/

namespace SomeDB

open Lib

/-- The loop of `circular_list_destroy` from the node `curr` on: the nodes that are freed, each with its value. -/
def destroyLoop : Nat → Option Nat → ListM (List Nat)
  | _, none => pure []
  | 0, some _ => Prog.fault .diverges
  | fuel + 1, some curr => do
    match nodesFrom curr (← Prog.get).nodes with
    | [] => Prog.fault .freed
    | temp :: rest => do
      let freed ← circularListRemove temp.value
      let others ← destroyLoop fuel (rest.head?.map (·.id))
      pure (freed.toList ++ others)

/-- `circular_list_destroy`. -/
def circularListDestroy (fuel : Nat) : ListM (List Nat) := do
  let cl ← Prog.get
  destroyLoop fuel (cl.nodes.head?.map (·.id))

/-- A call on a list. -/
inductive ListOp where
  | insert (value : CString)
  | remove (value : CString)

/-- The nodes that a call frees. -/
def listOp : ListOp → ListM (List Nat)
  | .insert value => do
    let _ ← circularListInsert value
    pure []
  | .remove value => do
    let freed ← circularListRemove value
    pure freed.toList

namespace CircularList

/-- The nodes that are in the list. -/
def ids (cl : CircularList) : List Nat := cl.nodes.map (·.id)

/-- The nodes that were allocated. -/
def allocated (cl : CircularList) : List Nat := List.range cl.nextId

/-- The nodes are counted and were allocated once each. -/
structure Counted (cl : CircularList) : Prop where
  size : cl.size = cl.nodes.length
  nodup : cl.ids.Nodup
  lt : ∀ id ∈ cl.ids, id < cl.nextId

end CircularList

open CircularList

section Calls

variable {cl cl' : CircularList} {value : CString} {freed : List Nat} {r : Option Nat} {op : ListOp}

/-- A removal unlinks the node that it frees. -/
theorem circularListRemove_ids (h : cl.Counted) (hrun : circularListRemove value cl = (.ok r, cl')) :
    cl'.Counted ∧ cl'.nextId = cl.nextId ∧ (r.toList ++ cl'.ids).Perm cl.ids := by
  unfold circularListRemove at hrun
  rcases hnodes : cl.nodes with _ | ⟨head, rest⟩
  · rw [hnodes] at hrun
    cases hrun
    exact ⟨h, rfl, .refl _⟩
  have hsize := h.size
  have hids : cl.ids = head.id :: rest.map (·.id) := by
    unfold ids
    rw [hnodes, List.map_cons]
  have hnodup := hids ▸ h.nodup
  have hlt := hids ▸ h.lt
  rw [hnodes, List.length_cons] at hsize
  rw [hnodes] at hrun
  simp only at hrun
  split at hrun
  · cases hrun
    refine ⟨⟨?_, (List.nodup_cons.mp hnodup).2, fun id hid => hlt id (List.mem_cons_of_mem _ hid)⟩, rfl, ?_⟩
    · simp only [hsize, Nat.add_sub_cancel]
    · rw [hids]
      exact .refl _
  · rcases rest with _ | ⟨curr, rest⟩
    · cases hrun
    cases hrun
    have hsub : ((head :: rest).map (·.id)).Sublist (head.id :: (curr :: rest).map (·.id)) := by
      simp only [List.map_cons]
      exact (List.sublist_cons_self ..).cons_cons _
    refine ⟨⟨?_, hnodup.sublist hsub, fun id hid => hlt id (hsub.subset hid)⟩, rfl, ?_⟩
    · simp only [hsize, List.length_cons, Nat.add_sub_cancel]
    · rw [hids]
      exact .swap ..

/-- Each call frees or keeps the nodes that it found and those that it allocated. -/
theorem listOp_ids (h : cl.Counted) (hrun : listOp op cl = (.ok freed, cl')) :
    cl'.Counted ∧ ∃ new, cl'.allocated.Perm (cl.allocated ++ new) ∧ (freed ++ cl'.ids).Perm (cl.ids ++ new) := by
  cases op with
  | insert value =>
    unfold listOp at hrun
    obtain ⟨node, cl₁, hinsert, hrest⟩ := Prog.bind_eq_ok hrun
    cases hrest
    unfold circularListInsert at hinsert
    split at hinsert
    · cases hinsert
      exact ⟨h, [], by rw [List.append_nil], by rw [List.append_nil, List.nil_append]⟩
    · cases hinsert
      refine ⟨⟨?_, ?_, ?_⟩, [cl.nextId], ?_, ?_⟩
      · simp only [List.length_cons, h.size]
      · exact List.nodup_cons.mpr ⟨fun hmem => Nat.lt_irrefl _ (h.lt _ hmem), h.nodup⟩
      · intro id hid
        rcases List.mem_cons.mp hid with rfl | hid
        · exact Nat.lt_succ_self _
        · exact Nat.lt_succ_of_lt (h.lt id hid)
      · unfold allocated
        rw [List.range_succ]
      · exact (List.perm_append_singleton cl.nextId cl.ids).symm
  | remove value =>
    unfold listOp at hrun
    obtain ⟨node, cl₁, hremove, hrest⟩ := Prog.bind_eq_ok hrun
    cases hrest
    obtain ⟨hcounted, hnext, hperm⟩ := circularListRemove_ids h hremove
    refine ⟨hcounted, [], ?_, ?_⟩
    · unfold allocated
      rw [hnext, List.append_nil]
    · rwa [List.append_nil]

end Calls

/-! ## The end of a list -/

section Life

variable {cl : CircularList} {capacity : Nat} {ops : List ListOp} {frees : List (List Nat)}

/-- The loop removes the first node as long as there is one. -/
theorem destroyLoop_ok {nodes : List ListNode} (hnodes : cl.nodes = nodes) (h : cl.Counted) {fuel : Nat}
    (hfuel : nodes.length ≤ fuel) : ∃ cl', destroyLoop fuel (nodes.head?.map (·.id)) cl =
      (.ok (nodes.map (·.id)), cl') ∧ cl'.nodes = [] ∧ cl'.size = 0 := by
  induction nodes generalizing cl fuel with
  | nil =>
    refine ⟨cl, ?_, hnodes, ?_⟩
    · cases fuel <;> rfl
    · rw [h.size, hnodes]
      rfl
  | cons head rest ih =>
    obtain ⟨fuel, rfl⟩ : ∃ n, fuel = n + 1 := ⟨fuel - 1, by rw [List.length_cons] at hfuel; omega⟩
    have hremove := circularListRemove_first hnodes rfl
    obtain ⟨hcounted, -, -⟩ := circularListRemove_ids h hremove
    obtain ⟨cl', hrest, hempty, hsize⟩ := ih rfl hcounted (Nat.le_of_succ_le_succ hfuel)
    have hfrom : nodesFrom head.id cl.nodes = head :: rest := by
      rw [hnodes]
      exact nodesFrom_of_split (a := []) (hnodes ▸ h.nodup)
    refine ⟨cl', ?_, hempty, hsize⟩
    rw [List.head?_cons, Option.map_some, destroyLoop, Prog.get_bind]
    simp only [hfrom]
    rw [Prog.bind_ok hremove, Prog.bind_ok hrest]
    rfl

theorem Counted.init (capacity : Nat) : (circularListInit capacity).Counted := by
  refine ⟨rfl, List.nodup_nil, ?_⟩
  intro id hid
  cases hid

/-- **The life of a list.** After every run of insertions and removals that return, `circular_list_destroy` returns and
leaves no node, and the nodes that were freed are those that were allocated, each once. -/
theorem list_life_frees (hrun : Prog.runAll listOp ops (circularListInit capacity) = (.ok frees, cl)) :
    ∃ n last,
      (∀ fuel, n ≤ fuel → ∃ cl', circularListDestroy fuel cl = (.ok last, cl') ∧ cl'.nodes = [] ∧ cl'.size = 0) ∧
      (frees.flatten ++ last).Perm cl.allocated ∧ (frees.flatten ++ last).Nodup := by
  obtain ⟨hcounted, new, hmade, hgave⟩ := Prog.runAll_balance id CircularList.ids CircularList.allocated
    CircularList.Counted (fun _ _ _ _ h hstep => listOp_ids h hstep) (Counted.init capacity) hrun
  have hperm : (frees.flatten ++ cl.ids).Perm cl.allocated := by
    rw [List.flatMap_id] at hgave
    exact hgave.trans hmade.symm
  refine ⟨cl.nodes.length, cl.ids, fun fuel hfuel => destroyLoop_ok rfl hcounted hfuel, hperm, ?_⟩
  exact hperm.nodup_iff.mpr List.nodup_range

end Life

/-- Of three nodes the second one is removed, and the others are freed in the end. -/
theorem list_life_frees_three :
    ([[], [], [], [1]].flatten ++ [2, 0] : List Nat).Perm (List.range 3) := by
  have hrun : Prog.runAll listOp [.insert ['a'], .insert ['b'], .insert ['c'], .remove ['b']] (circularListInit 10) =
      (.ok [[], [], [], [1]], ⟨10, 2, [⟨2, ['c']⟩, ⟨0, ['a']⟩], 3⟩) := by rfl
  obtain ⟨n, last, hdestroy, hperm, -⟩ := list_life_frees hrun
  obtain ⟨cl', hrun', -⟩ := hdestroy (n + 3) (Nat.le_add_right ..)
  have hlast : circularListDestroy (n + 3) ⟨10, 2, [⟨2, ['c']⟩, ⟨0, ['a']⟩], 3⟩ = (.ok [2, 0], ⟨10, 0, [], 3⟩) := by
    rfl
  cases hrun'.symm.trans hlast
  exact hperm

end SomeDB
