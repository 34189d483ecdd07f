import Mathlib.Data.List.Pairwise
import SomeDB.Utils.Hash

/-!
# What a removal frees (`hash.h`, `hash.c`)

The key and the data of an entry are in cells that `hash_remove` passes to `free`. It frees those of the linked element
that it removes. For the first element of a bucket it frees those of the element that stands in `arr` afterwards, which
is the next one or none; and an unused bucket passes for one whose first element is removed. A removal does what it
should if and only if the bucket is in use and its first element has another key (`releasesEntry_iff`).

`HashTable.Bucketed`: what every run of insertions and removals keeps, also one that frees what is still in the table.
-/

namespace SomeDB

open Lib

/-- The addresses of the key and of the data of an entry. -/
structure Cells where
  key : Nat
  data : Nat
  deriving DecidableEq, Repr

/-- The cells of an element. -/
def HashEl.cells (el : HashEl Cells) : List Nat := [el.data.key, el.data.data]

/-- The elements of the table. -/
def HashTable.entries {α : Type} (ht : HashTable α) : List (HashEl α) := ht.arr.flatMap Bucket.chain

/-- The key and data cells that `hash_remove` passes to `free`. A null pointer is no cell. -/
def freedCells (key : CString) (b : Bucket Cells) : Removed → List Nat
  | .absent => []
  -- `free` of `ht->arr[idx].key` and `ht->arr[idx].data`, after `ht->arr[idx]` was set
  | .head => (removeHead true b).head.toList.flatMap HashEl.cells
  -- `free_hash_el`
  | .linked => (b.next.find? fun el => el.key = key).toList.flatMap HashEl.cells

/-- `hash_remove`: `*success_out` and what was freed. -/
def hashRemoveCells (key : CString) : HashM Cells (Bool × List Nat) := do
  let (_, b) ← bucketOf key
  let removed ← hashRemove true key
  pure (decide (removed ≠ .absent), freedCells key b removed)

/-- The entries own pairwise distinct key and data cells that were not freed. -/
def OwnsCells (ht : HashTable Cells) : Prop :=
  (ht.entries.flatMap HashEl.cells).Nodup ∧ ∀ el ∈ ht.entries, el.freed = false

/-- The removal reports whether the key was present, frees the cells of its entry and no others, and no entry that
remains in the table refers to a freed cell. -/
def ReleasesEntry (ht : HashTable Cells) (key : CString) : Prop :=
  ∃ success freed ht', hashRemoveCells key ht = (.ok (success, freed), ht') ∧
    (success = true ↔ ∃ el ∈ ht.entries, el.key = key) ∧
    (∀ cell, cell ∈ freed ↔ ∃ el ∈ ht.entries, el.key = key ∧ cell ∈ el.cells) ∧
    ∀ el ∈ ht'.entries, ∀ cell ∈ el.cells, cell ∉ freed

/-- The first element of the key's bucket. -/
def firstOf (key : CString) (ht : HashTable Cells) : Option (HashEl Cells) :=
  match hash key ht with
  | .ok idx => ht.arr[idx]?.bind (·.head)
  | .error _ => none

/-! ## Runs of insertions and removals -/

/-- Each bucket holds a key at most once and only keys that hash to its index. -/
structure HashTable.Bucketed {α : Type} (ht : HashTable α) : Prop where
  ok : ∀ (i : Nat) (b : Bucket α), ht.arr[i]? = some b → b.Ok
  nodup : ∀ (i : Nat) (b : Bucket α), ht.arr[i]? = some b → (b.chain.map (·.key)).Nodup
  index : ∀ (i : Nat) (b : Bucket α), ht.arr[i]? = some b → ∀ k ∈ b.chain.map (·.key), hash k ht = .ok i

section Walks

variable {α : Type} {dealloc : Bool} {key : CString} {el : HashEl α} {els els' : List (HashEl α)}

/-- A walk of `hash_insert` that ends has put the element into the chain. -/
theorem insertNext_eq_ok (h : insertNext dealloc el els = .ok els') : els' = putKey el els := by
  induction els generalizing els' with
  | nil =>
    cases h
    rfl
  | cons temp rest ih =>
    unfold insertNext at h
    obtain ⟨eq, heq, h⟩ := except_bind_eq_ok h
    obtain ⟨-, hkey⟩ := keyIs_eq_ok heq
    unfold putKey
    cases eq with
    | true =>
      cases h
      rw [if_pos (hkey.mp rfl)]
    | false =>
      obtain ⟨rest', hrest, h⟩ := except_bind_eq_ok h
      cases h
      rw [if_neg fun he => Bool.false_ne_true (hkey.mpr he), ih hrest]

/-- A walk of `hash_remove` takes elements out only. -/
theorem removeNext_sublist (h : removeNext dealloc key els = .ok (some els')) : els'.Sublist els := by
  induction els generalizing els' with
  | nil => cases h
  | cons temp rest ih =>
    unfold removeNext at h
    obtain ⟨eq, -, h⟩ := except_bind_eq_ok h
    cases eq with
    | true =>
      cases h
      exact List.sublist_cons_self temp rest
    | false =>
      obtain ⟨o, hrest, h⟩ := except_bind_eq_ok h
      cases o with
      | none => cases h
      | some rest' =>
        cases h
        exact (ih hrest).cons_cons temp

theorem removeHead_keys (dealloc : Bool) (b : Bucket α) :
    (removeHead dealloc b).chain.map (·.key) = b.next.map (·.key) := by
  unfold removeHead
  cases b.next with
  | nil => rfl
  | cons next rest => rfl

end Walks

namespace HashTable.Bucketed

variable {α : Type} {dealloc : Bool} {ht ht' : HashTable α} {key : CString} {i : Nat} {b b' : Bucket α}

/-- One bucket is replaced. -/
theorem set (h : ht.Bucketed) (hok : b'.Ok) (hnodup : (b'.chain.map (·.key)).Nodup)
    (hindex : ∀ k ∈ b'.chain.map (·.key), hash k ht = .ok i) :
    ({ ht with arr := ht.arr.set i b' } : HashTable α).Bucketed := by
  refine ⟨fun j c hc => ?_, fun j c hc => ?_, fun j c hc => ?_⟩
  · rcases getElem?_set_cases hc with ⟨rfl, rfl⟩ | ⟨-, hc⟩
    · exact hok
    · exact h.ok j c hc
  · rcases getElem?_set_cases hc with ⟨rfl, rfl⟩ | ⟨-, hc⟩
    · exact hnodup
    · exact h.nodup j c hc
  · rcases getElem?_set_cases hc with ⟨rfl, rfl⟩ | ⟨-, hc⟩
    · exact hindex
    · exact h.index j c hc

/-- The keys of the bucket become fewer. -/
theorem set_of_sublist (h : ht.Bucketed) (hb : ht.arr[i]? = some b) (hok : b'.Ok)
    (hsub : (b'.chain.map (·.key)).Sublist (b.chain.map (·.key))) :
    ({ ht with arr := ht.arr.set i b' } : HashTable α).Bucketed :=
  h.set hok ((h.nodup i b hb).sublist hsub) fun k hk => h.index i b hb k (hsub.subset hk)

/-- An element is put into the bucket of its key. -/
theorem set_of_putKey (h : ht.Bucketed) (hi : hash key ht = .ok i) (hb : ht.arr[i]? = some b) (data : α)
    (hhead : b'.head ≠ none) (hchain : b'.chain = putKey ⟨key, data, false⟩ b.chain) :
    ({ ht with arr := ht.arr.set i b' } : HashTable α).Bucketed := by
  refine h.set (fun hnone => absurd hnone hhead) ?_ fun k hk => ?_
  · rw [hchain]
    exact nodup_putKey (h.nodup i b hb)
  · rw [hchain, mem_keys_putKey] at hk
    rcases hk with rfl | hk
    · exact hi
    · exact h.index i b hb k hk

theorem init (α : Type) (size : UInt32) : (initHash α size).Bucketed := by
  have hempty : ∀ (i : Nat) (b : Bucket α), (initHash α size).arr[i]? = some b → b = ⟨none, []⟩ := by
    intro i b hb
    exact List.eq_of_mem_replicate (List.mem_of_getElem? hb)
  refine ⟨fun i b hb => ?_, fun i b hb => ?_, fun i b hb => ?_⟩
  · rw [hempty i b hb]
    exact fun _ => rfl
  · rw [hempty i b hb]
    exact List.nodup_nil
  · rw [hempty i b hb]
    intro k hk
    cases hk

theorem hashInsert (h : ht.Bucketed) {data : α} {u : Unit}
    (hrun : SomeDB.hashInsert dealloc key data ht = (.ok u, ht')) : ht'.Bucketed := by
  obtain ⟨i, b, head, next, hi, hb, hins, rfl⟩ := hashInsert_eq_ok hrun
  refine h.set_of_putKey hi hb data (Option.some_ne_none head) ?_
  rw [← (h.ok i b hb).walked_eq, ← insertNext_eq_ok hins]
  rfl

theorem hashRemove (h : ht.Bucketed) {r : Removed} (hrun : SomeDB.hashRemove dealloc key ht = (.ok r, ht')) :
    ht'.Bucketed := by
  obtain ⟨i, b, -, hb, ⟨-, -, rfl⟩ | ⟨head, hhead, -, ⟨-, -, rfl⟩ | ⟨next', -, hnext, rfl⟩⟩⟩ := hashRemove_eq_ok hrun
  · -- the first element goes
    apply h.set_of_sublist hb (removeHead_ok dealloc b)
    rw [removeHead_keys]
    exact (List.sublist_append_right _ _).map _
  · exact h
  · apply h.set_of_sublist hb fun hnone => absurd hnone (Option.some_ne_none head)
    unfold Bucket.chain
    rw [hhead]
    exact ((removeNext_sublist hnext).cons_cons head).map _

/-- Every call keeps it. -/
theorem hashOp (h : ht.Bucketed) {op : HashOp α} {u : Unit} (hrun : SomeDB.hashOp dealloc op ht = (.ok u, ht')) :
    ht'.Bucketed := by
  cases op with
  | insert key data => exact h.hashInsert hrun
  | remove key =>
    obtain ⟨r, ht₁, hremove, hpure⟩ := Prog.bind_eq_ok hrun
    cases hpure
    exact h.hashRemove hremove

theorem of_run {size : UInt32} {ops : List (HashOp α)} {outs : List Unit}
    (hrun : Prog.runAll (SomeDB.hashOp dealloc) ops (initHash α size) = (.ok outs, ht)) : ht.Bucketed :=
  Prog.runAll_inv_of_ok (fun _ ht => ht.Bucketed) (fun _ _ _ _ _ h _ hstep => h.hashOp hstep) (init α size)
    (Prog.meets_of_forall (D := fun _ => True) (fun _ _ => trivial) _) hrun

end HashTable.Bucketed

/-! ## The entries and their cells -/

section Release

variable {ht ht' : HashTable Cells} {key : CString} {i : Nat} {b : Bucket Cells} {el el' first : HashEl Cells}
  {next : List (HashEl Cells)} {cell : Nat}

theorem mem_entries : el ∈ ht.entries ↔ ∃ (i : Nat) (b : Bucket Cells), ht.arr[i]? = some b ∧ el ∈ b.chain := by
  unfold HashTable.entries
  rw [List.mem_flatMap]
  constructor
  · rintro ⟨b, hb, hel⟩
    obtain ⟨i, hi⟩ := List.getElem?_of_mem hb
    exact ⟨i, b, hi, hel⟩
  · rintro ⟨i, b, hi, hel⟩
    exact ⟨b, List.mem_of_getElem? hi, hel⟩

theorem mem_entries_of_chain (hb : ht.arr[i]? = some b) (hel : el ∈ b.chain) : el ∈ ht.entries :=
  mem_entries.mpr ⟨i, b, hb, hel⟩

/-- The element of a key is in the key's bucket. -/
theorem HashTable.Bucketed.mem_chain (h : ht.Bucketed) (hi : hash key ht = .ok i) (hb : ht.arr[i]? = some b)
    (hel : el ∈ ht.entries) (hkey : el.key = key) : el ∈ b.chain := by
  obtain ⟨j, c, hc, hmem⟩ := mem_entries.mp hel
  have hj := h.index j c hc el.key (List.mem_map_of_mem hmem)
  rw [hkey, hi, Except.ok.injEq] at hj
  subst hj
  rw [hb, Option.some.injEq] at hc
  rwa [hc]

/-- A cell belongs to one entry. -/
theorem OwnsCells.eq_of_cell (h : OwnsCells ht) (hel : el ∈ ht.entries) (hel' : el' ∈ ht.entries)
    (hcell : cell ∈ el.cells) (hcell' : cell ∈ el'.cells) : el = el' := by
  by_contra hne
  have hsymm : Std.Symm (Function.onFun List.Disjoint HashEl.cells) := ⟨fun _ _ hxy => List.disjoint_symm hxy⟩
  have hdisjoint : List.Disjoint el.cells el'.cells := (List.nodup_flatMap.mp h.1).2.forall hel hel' hne
  exact hdisjoint hcell hcell'

theorem OwnsCells.readable (h : OwnsCells ht) (hb : ht.arr[i]? = some b) : Readable true b.chain := by
  intro el hel
  rw [h.2 el (mem_entries_of_chain hb hel)]
  rfl

theorem hashRemoveCells_eq (hi : hash key ht = .ok i) (hb : ht.arr[i]? = some b) {r : Removed}
    (hrun : hashRemove true key ht = (.ok r, ht')) :
    hashRemoveCells key ht = (.ok (decide (r ≠ .absent), freedCells key b r), ht') := by
  unfold hashRemoveCells
  rw [Prog.bind_ok (bucketOf_eq hi hb)]
  simp only
  rw [Prog.bind_ok hrun]
  rfl

theorem firstOf_eq (hi : hash key ht = .ok i) (hb : ht.arr[i]? = some b) : firstOf key ht = b.head := by
  unfold firstOf
  rw [hi]
  simp only [hb, Option.bind_some]

/-! ## The cases of a removal -/

/-- The removal of an absent key from an unused bucket is reported as a success. -/
theorem not_releases_unused (h : ht.Bucketed) (hi : hash key ht = .ok i) (hb : ht.arr[i]? = some ⟨none, next⟩) :
    ¬ ReleasesEntry ht key := by
  rintro ⟨success, freed, ht', hrun, hsuccess, -⟩
  rw [hashRemoveCells_eq hi hb (hashRemove_unused hi hb)] at hrun
  cases hrun
  obtain ⟨el, hel, hkey⟩ := hsuccess.mp rfl
  have hmem := h.mem_chain hi hb hel hkey
  rw [Bucket.chain, h.ok i _ hb rfl] at hmem
  cases hmem

/-- For the first element of a bucket nothing is freed, or the cells of the element behind it. -/
theorem not_releases_first (h : ht.Bucketed) (howns : OwnsCells ht) (hi : hash key ht = .ok i)
    (hb : ht.arr[i]? = some ⟨some first, next⟩) (hkey : first.key = key) : ¬ ReleasesEntry ht key := by
  have hread : Readable true (first :: next) := howns.readable hb
  rintro ⟨success, freed, ht', hrun, -, hfreed, -⟩
  rw [hashRemoveCells_eq hi hb (hashRemove_first hread hi hb hkey)] at hrun
  cases hrun
  have hfirst : first ∈ ht.entries := mem_entries_of_chain hb (List.mem_cons_self ..)
  cases next with
  | nil =>
    -- nothing is freed
    have hcell := (hfreed first.data.key).mpr ⟨first, hfirst, hkey, List.mem_cons_self ..⟩
    cases hcell
  | cons second rest =>
    have hsecond : second ∈ ht.entries := mem_entries_of_chain hb (List.mem_cons_of_mem _ (List.mem_cons_self ..))
    have hcell : second.data.key ∈ second.cells := List.mem_cons_self ..
    obtain ⟨el, hel, helkey, hmem⟩ := (hfreed second.data.key).mp (by simp [freedCells, removeHead, HashEl.cells])
    rw [howns.eq_of_cell hel hsecond hmem hcell] at helkey
    have hnodup := h.nodup i _ hb
    simp only [Bucket.chain, Option.toList_some, List.singleton_append, List.map_cons, List.nodup_cons,
      List.mem_cons, not_or] at hnodup
    exact hnodup.1.1 (hkey.trans helkey.symm)

/-- What is left after the removal of a linked element. -/
theorem entries_of_linked (h : ht.Bucketed) (hi : hash key ht = .ok i) (hb : ht.arr[i]? = some ⟨some first, next⟩)
    (hkey : first.key ≠ key) (hht' : ht' = { ht with arr := ht.arr.set i ⟨some first, next.eraseP (·.key = key)⟩ })
    (hel : el ∈ ht'.entries) : el ∈ ht.entries ∧ el.key ≠ key := by
  subst hht'
  have hnodup : (next.map (·.key)).Nodup := (List.nodup_cons.mp (h.nodup i _ hb)).2
  obtain ⟨j, c, hc, hmem⟩ := mem_entries.mp hel
  rcases getElem?_set_cases hc with ⟨rfl, rfl⟩ | ⟨hj, hc⟩
  · rcases List.mem_cons.mp hmem with rfl | hmem
    · exact ⟨mem_entries_of_chain hb (List.mem_cons_self ..), hkey⟩
    · refine ⟨mem_entries_of_chain hb (List.mem_cons_of_mem _ (List.mem_of_mem_eraseP hmem)), fun helkey => ?_⟩
      have hnone := find_eraseP hnodup key key
      rw [if_pos rfl, List.find?_eq_none] at hnone
      exact hnone el hmem (decide_eq_true helkey)
  · refine ⟨mem_entries_of_chain hc hmem, fun helkey => hj ?_⟩
    have hindex := h.index j c hc el.key (List.mem_map_of_mem hmem)
    rw [helkey, hi, Except.ok.injEq] at hindex
    exact hindex.symm

/-- A linked element is freed with its cells, and an absent key frees nothing. -/
theorem releases_linked (h : ht.Bucketed) (howns : OwnsCells ht) (hi : hash key ht = .ok i)
    (hb : ht.arr[i]? = some ⟨some first, next⟩) (hkey : first.key ≠ key) : ReleasesEntry ht key := by
  have hread : Readable true (first :: next) := howns.readable hb
  have hmemNext : ∀ el ∈ ht.entries, el.key = key → el ∈ next := by
    intro el hel helkey
    rcases List.mem_cons.mp (h.mem_chain hi hb hel helkey) with rfl | hmem
    · exact absurd helkey hkey
    · exact hmem
  have hentries : ∀ el ∈ next, el ∈ ht.entries := fun el hel =>
    mem_entries_of_chain hb (List.mem_cons_of_mem _ hel)
  by_cases hmem : key ∈ next.map (·.key)
  · have hrun := hashRemoveCells_eq hi hb (hashRemove_linked hread hi hb hkey hmem)
    have hnodup : (next.map (·.key)).Nodup := (List.nodup_cons.mp (h.nodup i _ hb)).2
    -- the element of the key
    obtain ⟨el, hel, helkey⟩ := List.mem_map.mp hmem
    have hone : ∀ x ∈ next, x.key = key → x = el := fun x hx hxkey =>
      List.inj_on_of_nodup_map hnodup hx hel (hxkey.trans helkey.symm)
    have hfind : next.find? (fun x => x.key = key) = some el := by
      have hsome : (next.find? fun x => x.key = key).isSome = true :=
        List.find?_isSome.mpr ⟨el, hel, decide_eq_true helkey⟩
      obtain ⟨x, hx⟩ := Option.isSome_iff_exists.mp hsome
      have hxkey : x.key = key := by simpa using List.find?_some hx
      rw [hx, hone x (List.mem_of_find?_eq_some hx) hxkey]
    have hfreed : freedCells key ⟨some first, next⟩ .linked = el.cells := by
      simp only [freedCells, hfind, Option.toList_some, List.flatMap_singleton]
    rw [hfreed] at hrun
    refine ⟨_, _, _, hrun, iff_of_true rfl ⟨el, hentries el hel, helkey⟩, fun cell => ?_, ?_⟩
    · constructor
      · exact fun hcell => ⟨el, hentries el hel, helkey, hcell⟩
      · rintro ⟨x, hx, hxkey, hcell⟩
        rwa [hone x (hmemNext x hx hxkey) hxkey] at hcell
    · -- what is left has other keys
      intro x hx cell hcell hcell'
      obtain ⟨hxold, hxkey⟩ := entries_of_linked h hi hb hkey rfl hx
      have heq := howns.eq_of_cell hxold (hentries el hel) hcell hcell'
      exact hxkey (heq ▸ helkey)
  · have hrun := hashRemoveCells_eq hi hb (hashRemove_absent hread hi hb hkey hmem)
    have habsent : ¬ ∃ el ∈ ht.entries, el.key = key := by
      rintro ⟨el, hel, helkey⟩
      exact hmem (List.mem_map.mpr ⟨el, hmemNext el hel helkey, helkey⟩)
    refine ⟨_, _, _, hrun, iff_of_false (by simp) habsent, fun cell => iff_of_false List.not_mem_nil ?_, ?_⟩
    · rintro ⟨el, hel, helkey, -⟩
      exact habsent ⟨el, hel, helkey⟩
    · exact fun el hel cell hcell => List.not_mem_nil

/-- A removal does what it should just if the bucket of the key is in use and its first element has another key. -/
theorem releasesEntry_iff_of_bucketed (h : ht.Bucketed) (howns : OwnsCells ht) (key : CString) :
    ReleasesEntry ht key ↔ ∃ first ∈ firstOf key ht, first.key ≠ key := by
  rcases hbucket : bucketOf key ht with ⟨e | ⟨i, b⟩, ht₁⟩
  · -- the key has no bucket
    refine iff_of_false ?_ ?_
    · rintro ⟨success, freed, ht', hrun, -⟩
      rw [hashRemoveCells, Prog.bind_error hbucket] at hrun
      cases hrun
    · rintro ⟨first, hfirst, -⟩
      unfold firstOf at hfirst
      cases hi : hash key ht with
      | error e =>
        rw [hi] at hfirst
        cases hfirst
      | ok i =>
        rw [hi] at hfirst
        obtain ⟨b, hb, -⟩ := Option.bind_eq_some_iff.mp hfirst
        rw [bucketOf_eq hi hb] at hbucket
        cases hbucket
  obtain ⟨hi, hb, rfl⟩ := bucketOf_eq_ok hbucket
  rw [firstOf_eq hi hb]
  rcases b with ⟨_ | first, next⟩
  · exact iff_of_false (not_releases_unused h hi hb) (by simp)
  by_cases hkey : first.key = key
  · refine iff_of_false (not_releases_first h howns hi hb hkey) ?_
    rintro ⟨x, hx, hne⟩
    cases hx
    exact hne hkey
  · exact iff_of_true (releases_linked h howns hi hb hkey) ⟨first, rfl, hkey⟩

/-- In every table that insertions and removals make, if its entries own their cells. -/
theorem releasesEntry_iff {size : UInt32} {ops : List (HashOp Cells)} {outs : List Unit}
    (hrun : Prog.runAll (hashOp true) ops (initHash Cells size) = (.ok outs, ht)) (howns : OwnsCells ht)
    (key : CString) : ReleasesEntry ht key ↔ ∃ first ∈ firstOf key ht, first.key ≠ key :=
  releasesEntry_iff_of_bucketed (.of_run hrun) howns key

end Release

/-- Three buckets; the keys 1 and 4 collide. -/
def collidingOps : List (HashOp Cells) := [.insert ['1'] ⟨100, 101⟩, .insert ['4'] ⟨102, 103⟩]

/-- The table after these insertions. -/
def collidingTable : HashTable Cells :=
  ⟨[⟨none, []⟩, ⟨some ⟨['1'], ⟨100, 101⟩, false⟩, [⟨['4'], ⟨102, 103⟩, false⟩]⟩, ⟨none, []⟩], 3⟩

theorem collidingOps_run :
    Prog.runAll (hashOp true) collidingOps (initHash Cells 3) = (.ok [(), ()], collidingTable) := by
  rfl

theorem collidingTable_owns : OwnsCells collidingTable := ⟨by decide, by decide⟩

theorem releasesEntry_collidingTable : ReleasesEntry collidingTable ['4'] :=
  (releasesEntry_iff collidingOps_run collidingTable_owns ['4']).mpr ⟨_, rfl, by decide⟩

/-- The removal of the key 1 frees the cells of the key 4, and one of the absent key 2 is reported as a success. -/
theorem releasesEntry_fails :
    (∃ ht', hashRemoveCells ['1'] collidingTable = (.ok (true, [102, 103]), ht')) ∧
      ¬ ReleasesEntry collidingTable ['1'] ∧
      (∃ ht', hashRemoveCells ['2'] collidingTable = (.ok (true, []), ht')) ∧ ¬ ReleasesEntry collidingTable ['2'] := by
  have hnone : ∀ el ∈ collidingTable.entries, el.key = ['1'] → 102 ∉ el.cells := by decide
  have habsent : ∀ el ∈ collidingTable.entries, el.key ≠ ['2'] := by decide
  refine ⟨⟨_, rfl⟩, ?_, ⟨_, rfl⟩, ?_⟩
  · rintro ⟨success, freed, ht', hrun, -, hfreed, -⟩
    cases hrun
    obtain ⟨el, hel, hkey, hcell⟩ := (hfreed 102).mp (by decide)
    exact hnone el hel hkey hcell
  · rintro ⟨success, freed, ht', hrun, hsuccess, -⟩
    cases hrun
    obtain ⟨el, hel, hkey⟩ := hsuccess.mp rfl
    exact habsent el hel hkey

end SomeDB
