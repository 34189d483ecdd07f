import Mathlib.Data.List.Flatten
import SomeDB.Lib.Ledger
import SomeDB.Utils.HashCells

/-!
# What a table frees in its life (`hash.h`, `hash.c`)

`destroy_hash` steps over two elements at a time and frees the second one, so that of a bucket's elements it frees those
at the odd positions. Over the life of a table no key and no data is freed twice, by removals or in the end, and what
stands at an even position is never freed (`hash_life_frees`).

The memory of the linked elements themselves is left out, as in the removals.
-/

namespace SomeDB

open Lib

/-- The loop of `destroy_hash` over one bucket: the elements that it passes to `free_hash_el`. -/
def destroyNext {α : Type} : List (HashEl α) → List (HashEl α)
  | _ :: temp :: rest => temp :: destroyNext rest
  | _ => []

/-- The loop ends at once where the element in `arr` has no key. -/
def destroyBucket {α : Type} (b : Bucket α) : List (HashEl α) :=
  match b.head with
  | none => []
  | some head => destroyNext (head :: b.next)

/-- `destroy_hash`: the key and data cells that are freed, in their order. -/
def destroyHash (ht : HashTable Cells) : List Nat :=
  ((ht.arr.take ht.size.toNat).flatMap destroyBucket).flatMap HashEl.cells

/-- A call, with the key and data cells that it frees. -/
def hashCells : HashOp Cells → HashM Cells (List Nat)
  | .insert key data => do
    hashInsert true key data
    pure []
  | .remove key => do
    let (_, freed) ← hashRemoveCells key
    pure freed

/-- The cells that the caller of `hash_insert` hands over. -/
def HashOp.newCells : HashOp Cells → List Nat
  | .insert _ data => [data.key, data.data]
  | .remove _ => []

/-- The cells of an element that were not freed. -/
def HashEl.live (el : HashEl Cells) : List Nat := if el.freed then [] else el.cells

/-- Each bucket holds keys of its own index, and the elements behind the first one were not freed. -/
structure HashTable.LinkedLive (ht : HashTable Cells) : Prop extends ht.Bucketed where
  live : ∀ (i : Nat) (b : Bucket Cells), ht.arr[i]? = some b → ∀ el ∈ b.next, el.freed = false

/-! ## The elements of a bucket -/

section Chains

variable {α β : Type} {dealloc : Bool} {key : CString} {el : HashEl α} {els els' : List (HashEl α)} {b : Bucket α}

theorem mem_destroyNext : el ∈ destroyNext els ↔ ∃ j, j % 2 = 1 ∧ els[j]? = some el := by
  induction els using destroyNext.induct with
  | case1 x temp rest ih =>
    rw [destroyNext, List.mem_cons, ih]
    constructor
    · rintro (rfl | ⟨j, hj, hel⟩)
      · exact ⟨1, rfl, rfl⟩
      · exact ⟨j + 2, by omega, hel⟩
    · rintro ⟨_ | _ | j, hj, hel⟩
      · cases hj
      · exact .inl (Option.some.inj hel).symm
      · exact .inr ⟨j, by omega, hel⟩
  | case2 els h =>
    rcases els with _ | ⟨x, _ | ⟨temp, rest⟩⟩
    · simp [destroyNext]
    · refine iff_of_false List.not_mem_nil ?_
      rintro ⟨_ | j, hj, hel⟩
      · cases hj
      · cases hel
    · exact absurd rfl (h x temp rest)

/-- The first one stays. -/
theorem destroyNext_sublist (x : HashEl α) (els : List (HashEl α)) : (destroyNext (x :: els)).Sublist els := by
  unfold destroyNext
  rcases els with _ | ⟨temp, _ | ⟨y, rest⟩⟩
  · exact .slnil
  · exact .refl _
  · exact (destroyNext_sublist y rest).cons y |>.cons_cons temp

theorem destroyBucket_sublist (b : Bucket α) : (destroyBucket b).Sublist b.next := by
  unfold destroyBucket
  cases b.head with
  | none => exact List.nil_sublist _
  | some head => exact destroyNext_sublist head b.next

theorem mem_destroyBucket (hok : b.Ok) : el ∈ destroyBucket b ↔ ∃ j, j % 2 = 1 ∧ b.chain[j]? = some el := by
  obtain ⟨_ | head, next⟩ := b
  · rw [Bucket.chain, hok rfl]
    simp [destroyBucket]
  · exact mem_destroyNext

/-- The element that a removal unlinks, and the others. -/
theorem removeNext_perm (h : removeNext dealloc key els = .ok (some els')) :
    ∃ el, els.find? (fun x => x.key = key) = some el ∧ els.Perm (el :: els') := by
  induction els generalizing els' with
  | nil => cases h
  | cons temp rest ih =>
    unfold removeNext at h
    obtain ⟨eq, heq, h⟩ := except_bind_eq_ok h
    obtain ⟨-, hkey⟩ := keyIs_eq_ok heq
    cases eq with
    | true =>
      cases h
      exact ⟨temp, List.find?_cons_of_pos (decide_eq_true (hkey.mp rfl)), .refl _⟩
    | false =>
      have hne : ¬ temp.key = key := fun he => Bool.false_ne_true (hkey.mpr he)
      obtain ⟨o, hrest, h⟩ := except_bind_eq_ok h
      cases o with
      | none => cases h
      | some rest' =>
        cases h
        obtain ⟨el, hfind, hperm⟩ := ih hrest
        refine ⟨el, ?_, (hperm.cons temp).trans (.swap el temp rest')⟩
        rwa [List.find?_cons_of_neg (by simpa using hne)]

/-- What the elements stand for, after one of them was put in. -/
theorem putKey_flatMap_subperm (f : HashEl α → List β) (el : HashEl α) (els : List (HashEl α)) :
    ((putKey el els).flatMap f).Subperm (f el ++ els.flatMap f) := by
  induction els with
  | nil => exact .refl _
  | cons temp rest ih =>
    unfold putKey
    split
    · apply List.Sublist.subperm
      exact (List.Sublist.refl (f el)).append (List.sublist_append_right (f temp) (rest.flatMap f))
    · simp only [List.flatMap_cons]
      refine ((List.subperm_append_left (f temp)).mpr ih).trans (List.Perm.subperm ?_)
      rw [← List.append_assoc, ← List.append_assoc]
      exact List.perm_append_comm.append_right _

end Chains

/-! ## One call -/

section Calls

variable {ht ht' : HashTable Cells} {key : CString} {data : Cells} {el : HashEl Cells} {els : List (HashEl Cells)}
  {b : Bucket Cells} {freed : List Nat} {op : HashOp Cells}

theorem HashEl.live_of_freed (h : el.freed = false) : el.live = el.cells := by
  unfold HashEl.live
  rw [h, if_neg Bool.false_ne_true]

theorem flatMap_live (h : ∀ el ∈ els, el.freed = false) : els.flatMap HashEl.live = els.flatMap HashEl.cells :=
  List.flatMap_congr fun el hel => HashEl.live_of_freed (h el hel)

/-- The elements of one bucket change. -/
theorem entries_set_subperm {i : Nat} {b' : Bucket Cells} {f : HashEl Cells → List Nat} (given taken : List Nat)
    (hb : ht.arr[i]? = some b) (h : (given ++ b'.chain.flatMap f).Subperm (taken ++ b.chain.flatMap f)) :
    (given ++ ({ ht with arr := ht.arr.set i b' } : HashTable Cells).entries.flatMap f).Subperm
      (taken ++ ht.entries.flatMap f) := by
  unfold HashTable.entries
  rw [List.flatMap_assoc, List.flatMap_assoc]
  exact subperm_flatMap_set (f := fun b : Bucket Cells => b.chain.flatMap f) hb h

theorem HashTable.LinkedLive.set {i : Nat} {b' : Bucket Cells} (h : ht.LinkedLive)
    (hbucketed : ({ ht with arr := ht.arr.set i b' } : HashTable Cells).Bucketed)
    (hlive : ∀ el ∈ b'.next, el.freed = false) : ({ ht with arr := ht.arr.set i b' } : HashTable Cells).LinkedLive := by
  refine ⟨hbucketed, fun j c hc => ?_⟩
  rcases getElem?_set_cases hc with ⟨rfl, rfl⟩ | ⟨-, hc⟩
  · exact hlive
  · exact h.live j c hc

/-- An insertion leaves no more than was there and what it brings. -/
theorem hashInsert_cells (h : ht.LinkedLive) (hrun : hashInsert true key data ht = (.ok (), ht')) :
    ht'.LinkedLive ∧ ∀ f : HashEl Cells → List Nat,
      (ht'.entries.flatMap f).Subperm (f ⟨key, data, false⟩ ++ ht.entries.flatMap f) := by
  have hbucketed := h.toBucketed.hashInsert hrun
  obtain ⟨i, b, head, next, hi, hb, hins, rfl⟩ := hashInsert_eq_ok hrun
  have hput := insertNext_eq_ok hins
  refine ⟨h.set hbucketed fun el hel => ?_, fun f => ?_⟩
  · -- what is behind the first element was there, or is the new one
    obtain ⟨_ | temp, rest⟩ := b
    · cases hput
      cases hel
    · rw [Bucket.walked, putKey] at hput
      split at hput
      · cases hput
        exact h.live i _ hb el hel
      · cases hput
        rcases mem_putKey hel with rfl | hel
        · rfl
        · exact h.live i _ hb el hel
  · apply entries_set_subperm [] _ hb
    have hchain : (⟨some head, next⟩ : Bucket Cells).chain = putKey ⟨key, data, false⟩ b.chain := by
      rw [← (h.ok i b hb).walked_eq, ← hput]
      rfl
    rw [hchain]
    exact putKey_flatMap_subperm f _ b.chain

/-- What a removal frees it takes out of the table, and cells that it frees were not freed. -/
theorem hashRemoveCells_cells (h : ht.LinkedLive) {success : Bool}
    (hrun : hashRemoveCells key ht = (.ok (success, freed), ht')) :
    ht'.LinkedLive ∧ (freed ++ ht'.entries.flatMap HashEl.live).Subperm (ht.entries.flatMap HashEl.live) ∧
      (ht'.entries.flatMap HashEl.cells).Subperm (ht.entries.flatMap HashEl.cells) := by
  unfold hashRemoveCells at hrun
  obtain ⟨⟨i, b⟩, ht₁, hbucket, hrest⟩ := Prog.bind_eq_ok hrun
  obtain ⟨hi, hb, rfl⟩ := bucketOf_eq_ok hbucket
  simp only at hi hb hrest
  obtain ⟨r, ht₂, hremove, hpure⟩ := Prog.bind_eq_ok hrest
  cases hpure
  have hbucketed := h.toBucketed.hashRemove hremove
  obtain ⟨j, c, hj, hc, hcases⟩ := hashRemove_eq_ok hremove
  rw [hi, Except.ok.injEq] at hj
  subst hj
  rw [hb, Option.some.injEq] at hc
  subst hc
  have hnext := h.live i b hb
  rcases hcases with ⟨rfl, -, rfl⟩ | ⟨head, hhead, -, ⟨rfl, -, rfl⟩ | ⟨next', rfl, hremoved, rfl⟩⟩
  · -- the cells of the second element are freed, which becomes the first one
    obtain ⟨head, _ | ⟨second, rest⟩⟩ := b
    · refine ⟨h.set hbucketed fun el hel => absurd hel List.not_mem_nil, ?_, ?_⟩
      · exact entries_set_subperm _ [] hb (List.nil_subperm)
      · exact entries_set_subperm [] [] hb (List.nil_subperm)
    · have hsecond := HashEl.live_of_freed (hnext second (List.mem_cons_self ..))
      refine ⟨h.set hbucketed fun el hel => hnext el (List.mem_cons_of_mem second hel), ?_, ?_⟩
      · apply entries_set_subperm _ [] hb
        apply List.Sublist.subperm
        have hfreed : freedCells key ⟨head, second :: rest⟩ .head = second.live := by
          rw [hsecond]
          exact List.append_nil _
        have hkept : (removeHead true ⟨head, second :: rest⟩).chain.flatMap HashEl.live =
            rest.flatMap HashEl.live := rfl
        rw [hfreed, hkept, Bucket.chain, List.flatMap_append]
        exact List.sublist_append_right _ _
      · apply entries_set_subperm [] [] hb
        apply List.Sublist.subperm
        -- the second element has the same cells in the place of the first one
        have hkept : (removeHead true ⟨head, second :: rest⟩).chain.flatMap HashEl.cells =
            (second :: rest).flatMap HashEl.cells := rfl
        rw [hkept]
        exact (List.sublist_append_right head.toList (second :: rest)).flatMap HashEl.cells
  · exact ⟨h, .refl _, .refl _⟩
  · obtain ⟨el, hfind, hperm⟩ := removeNext_perm hremoved
    have hel := HashEl.live_of_freed (hnext el (List.mem_of_find?_eq_some hfind))
    refine ⟨h.set hbucketed fun x hx => hnext x (hperm.mem_iff.mpr (List.mem_cons_of_mem el hx)), ?_, ?_⟩
    · apply entries_set_subperm _ [] hb
      have hfreed : freedCells key b .linked = el.live := by
        rw [freedCells, hfind, hel, Option.toList_some, List.flatMap_singleton]
      rw [hfreed, Bucket.chain, Bucket.chain, hhead, List.flatMap_append, List.flatMap_append]
      refine List.Perm.subperm (List.perm_append_comm_assoc _ _ _ |>.trans (List.Perm.append_left _ ?_))
      exact (hperm.flatMap_right HashEl.live).symm
    · apply entries_set_subperm [] [] hb
      apply List.Sublist.subperm
      rw [List.nil_append, List.nil_append, Bucket.chain, Bucket.chain, hhead]
      exact ((removeNext_sublist hremoved).cons_cons head).flatMap HashEl.cells

/-- What a call frees and what stays in the table was in the table or comes with the call. -/
theorem hashCells_eq_ok (h : ht.LinkedLive) (hrun : hashCells op ht = (.ok freed, ht')) :
    ht'.LinkedLive ∧
      (freed ++ ht'.entries.flatMap HashEl.live).Subperm (op.newCells ++ ht.entries.flatMap HashEl.live) ∧
      (ht'.entries.flatMap HashEl.cells).Subperm (op.newCells ++ ht.entries.flatMap HashEl.cells) := by
  cases op with
  | insert key data =>
    obtain ⟨⟨⟩, ht₁, hinsert, hpure⟩ := Prog.bind_eq_ok hrun
    cases hpure
    obtain ⟨hlinked, hcells⟩ := hashInsert_cells h hinsert
    exact ⟨hlinked, hcells HashEl.live, hcells HashEl.cells⟩
  | remove key =>
    obtain ⟨⟨success, freed'⟩, ht₁, hremove, hpure⟩ := Prog.bind_eq_ok hrun
    cases hpure
    exact hashRemoveCells_cells h hremove

end Calls

/-! ## The life of a table -/

theorem HashTable.LinkedLive.init (size : UInt32) : (initHash Cells size).LinkedLive := by
  refine ⟨.init Cells size, fun i b hb el hel => ?_⟩
  rw [List.eq_of_mem_replicate (List.mem_of_getElem? hb)] at hel
  cases hel

/-- A new table has no entries. -/
theorem entries_initHash (size : UInt32) : (initHash Cells size).entries = [] :=
  List.flatMap_eq_nil_iff.mpr fun b hb => by rw [List.eq_of_mem_replicate hb]; rfl

section Life

variable {size : UInt32} {ops : List (HashOp Cells)} {frees : List (List Nat)} {ht : HashTable Cells}

/-- What was freed and what is in the table and was not freed. -/
theorem runAll_hashCells (hrun : Prog.runAll hashCells ops (initHash Cells size) = (.ok frees, ht)) :
    ht.LinkedLive ∧ (frees.flatten ++ ht.entries.flatMap HashEl.live).Subperm (ops.flatMap HashOp.newCells) ∧
      (ht.entries.flatMap HashEl.cells).Subperm (ops.flatMap HashOp.newCells) := by
  have hnone : ∀ f : HashEl Cells → List Nat, (initHash Cells size).entries.flatMap f = [] := by
    intro f
    rw [entries_initHash]
    rfl
  obtain ⟨hlinked, hlive⟩ := Prog.runAll_ledger id HashOp.newCells
    (fun ht => ht.entries.flatMap HashEl.live) HashTable.LinkedLive
    (fun ht op freed ht' h hone => ⟨(hashCells_eq_ok h hone).1, (hashCells_eq_ok h hone).2.1⟩) (.init size) hrun
  obtain ⟨-, hcells⟩ := Prog.runAll_ledger (fun _ => []) HashOp.newCells
    (fun ht => ht.entries.flatMap HashEl.cells) HashTable.LinkedLive
    (fun ht op freed ht' h hone => ⟨(hashCells_eq_ok h hone).1, (hashCells_eq_ok h hone).2.2⟩) (.init size) hrun
  simp only [hnone, List.append_nil, List.flatMap_id] at hlive hcells
  exact ⟨hlinked, hlive, (List.sublist_append_right _ _).subperm.trans hcells⟩

/-- The end frees cells of the table only, and none that was freed. -/
theorem destroyHash_sublist (h : ht.LinkedLive) : (destroyHash ht).Sublist (ht.entries.flatMap HashEl.live) := by
  unfold destroyHash
  have hlive : ∀ el ∈ (ht.arr.take ht.size.toNat).flatMap destroyBucket, el.freed = false := by
    intro el hel
    obtain ⟨b, hb, hel⟩ := List.mem_flatMap.mp hel
    obtain ⟨i, hi⟩ := List.getElem?_of_mem (List.mem_of_mem_take hb)
    exact h.live i b hi el ((destroyBucket_sublist b).subset hel)
  rw [← flatMap_live hlive]
  apply List.Sublist.flatMap
  refine ((List.take_sublist _ _).flatMap destroyBucket).trans (List.Sublist.flatMap_right _ fun b _ => ?_)
  exact (destroyBucket_sublist b).trans (List.sublist_append_right _ _)

/-- Of an element that the table can reach, the end frees the cells just if the loop comes to its bucket and it stands
at an odd position. -/
theorem mem_destroyHash (h : ht.LinkedLive) (hnodup : (ht.entries.flatMap HashEl.cells).Nodup) {i j : Nat}
    {b : Bucket Cells} {el : HashEl Cells} {cell : Nat} (hb : ht.arr[i]? = some b) (hel : b.chain[j]? = some el)
    (hcell : cell ∈ el.cells) : cell ∈ destroyHash ht ↔ i < ht.size.toNat ∧ j % 2 = 1 := by
  unfold destroyHash
  rw [List.mem_flatMap]
  constructor
  · rintro ⟨el', hel', hcell'⟩
    obtain ⟨b', hb', hel'⟩ := List.mem_flatMap.mp hel'
    obtain ⟨i', hi'⟩ := List.getElem?_of_mem hb'
    rw [List.getElem?_take] at hi'
    obtain ⟨hlt, hb'⟩ := Option.ite_none_right_eq_some.mp hi'
    obtain ⟨j', hj', hel'⟩ := (mem_destroyBucket (h.ok i' b' hb')).mp hel'
    -- the cell has one owner, and the owner one place
    have hone : el = el' := owner_unique hnodup (mem_entries_of_chain hb (List.mem_of_getElem? hel))
      (mem_entries_of_chain hb' (List.mem_of_getElem? hel')) hcell hcell'
    subst hone
    have hi := h.index i b hb el.key (List.mem_map_of_mem (List.mem_of_getElem? hel))
    have hi' := h.index i' b' hb' el.key (List.mem_map_of_mem (List.mem_of_getElem? hel'))
    rw [hi, Except.ok.injEq] at hi'
    subst hi'
    rw [hb, Option.some.injEq] at hb'
    subst hb'
    have hlen := (List.getElem?_eq_some_iff.mp hel).1
    have hj : j = j' := (List.getElem?_inj hlen (List.Nodup.of_map _ (h.nodup i b hb))).mp (hel.trans hel'.symm)
    exact ⟨hlt, hj ▸ hj'⟩
  · rintro ⟨hlt, hj⟩
    refine ⟨el, List.mem_flatMap.mpr ⟨b, ?_, (mem_destroyBucket (h.ok i b hb)).mpr ⟨j, hj, hel⟩⟩, hcell⟩
    apply List.mem_of_getElem? (i := i)
    rw [List.getElem?_take, if_pos hlt, hb]

/-- **No cell is freed twice.** If each insertion brings a key and data of its own, then no key and no data is freed
twice by the removals and the end together. The end frees those of the elements at odd positions of the buckets that its
loop comes to, and so those of all entries only if there are none. -/
theorem hash_life_frees (hnew : (ops.flatMap HashOp.newCells).Nodup)
    (hrun : Prog.runAll hashCells ops (initHash Cells size) = (.ok frees, ht)) :
    (frees.flatten ++ destroyHash ht).Nodup ∧
      (∀ i b j el cell, ht.arr[i]? = some b → b.chain[j]? = some el → cell ∈ el.cells →
        (cell ∈ destroyHash ht ↔ i < ht.size.toNat ∧ j % 2 = 1)) ∧
      ((∀ el ∈ ht.entries, ∀ cell ∈ el.cells, cell ∈ destroyHash ht) ↔ ht.entries = []) := by
  obtain ⟨hlinked, hlive, hcells⟩ := runAll_hashCells hrun
  have hnodup := nodup_of_subperm hcells hnew
  have hmem : ∀ i b j el cell, ht.arr[i]? = some b → b.chain[j]? = some el → cell ∈ el.cells →
      (cell ∈ destroyHash ht ↔ i < ht.size.toNat ∧ j % 2 = 1) :=
    fun i b j el cell hb hel hcell => mem_destroyHash hlinked hnodup hb hel hcell
  refine ⟨?_, hmem, fun hall => ?_, fun hnone => ?_⟩
  · apply nodup_of_subperm (List.Subperm.trans ?_ hlive) hnew
    exact ((destroyHash_sublist hlinked).append_left frees.flatten).subperm
  · -- the first element of a bucket is not freed
    refine List.eq_nil_iff_forall_not_mem.mpr fun el hel => ?_
    obtain ⟨i, b, hb, hel⟩ := mem_entries.mp hel
    obtain ⟨first, rest, hchain⟩ := List.exists_cons_of_ne_nil (List.ne_nil_of_mem hel)
    have hfirst : b.chain[0]? = some first := by rw [hchain]; rfl
    have hcell : first.data.key ∈ first.cells := List.mem_cons_self ..
    have hfreed := hall first (mem_entries_of_chain hb (List.mem_of_getElem? hfirst)) _ hcell
    have hodd := ((hmem i b 0 first _ hb hfirst hcell).mp hfreed).2
    omega
  · rw [hnone]
    exact fun el hel => absurd hel List.not_mem_nil

end Life

/-- Three buckets and four keys that collide. The removal of the key 1 frees the cells of the key 4, and the end those
of the key 7. -/
theorem hash_life_frees_collide :
    ([[], [], [], [], [102, 103]].flatten ++ [104, 105] : List Nat).Nodup := by
  have hrun : Prog.runAll hashCells [.insert ['1'] ⟨100, 101⟩, .insert ['4'] ⟨102, 103⟩, .insert ['7'] ⟨104, 105⟩,
      .insert ['1', '0'] ⟨106, 107⟩, .remove ['1']] (initHash Cells 3) =
    (.ok [[], [], [], [], [102, 103]], ⟨[⟨none, []⟩, ⟨some ⟨['4'], ⟨102, 103⟩, true⟩, [⟨['7'], ⟨104, 105⟩, false⟩,
      ⟨['1', '0'], ⟨106, 107⟩, false⟩]⟩, ⟨none, []⟩], 3⟩) := by rfl
  exact (hash_life_frees (by decide) hrun).1

end SomeDB
