import SomeDB.Disk.DirectoryRuns

/-!
# Runs on a table: the tuples of a page

`TablePage schema slots d`: page 2 of the table holds the tuples `slots`. A tuple that fits is appended to
them, a removed tuple is marked; nothing else in the page changes.

* A run of additions and removals reads back as an array of slots (`tuple_run_slots`).
* Nothing checks that a tuple fits. A run in which every tuple does keeps the page well formed
  (`add_run_pageSafe`).
-/

namespace SomeDB

open Lib

/-- The table has a directory and a schema, and page 2 holds the tuples. -/
structure TablePage (schema : Page) (slots : List Slot) (d : DiskManager) : Prop where
  directory : ∃ free, DirHolds d.pageDirectory free
  page0 : ∃ dir, d.file 0 = some dir
  page1 : d.file 1 = some schema
  page2 : ∃ page, d.file 2 = some page ∧ Holds page slots

/-- The tuple conforms to the schema, and there is room in page 2 for it and its pointer. -/
def Fits (d : DiskManager) (args : AddTupleArgs) : Prop :=
  ∃ schema page, d.file 1 = some schema ∧ d.file 2 = some page ∧ validate schema args = .ok true ∧
    (extractHeader page).freeStart.toNat + 4 + (tupleBytes args).length ≤
      (extractHeader page).freeEnd.toNat

namespace TablePage

variable {schema : Page} {slots : List Slot} {d : DiskManager}

/-- A table with a new page. -/
theorem of_newHeapPage {free : Nat → UInt16} {dir : Page} {pid : PageId} {d' : DiskManager}
    (hdir : DirHolds d.pageDirectory free) (h0 : d.file 0 = some dir) (h1 : d.file 1 = some schema)
    (hnew : newHeapPage d = (.ok pid, d')) : pid = 2 ∧ d' = d.withNewPage ∧ TablePage schema [] d' := by
  rw [newHeapPage_ok hdir] at hnew
  cases hnew
  exact ⟨rfl, rfl, ⟨free, hdir⟩, ⟨dir, (withNewPage_file_ne d (by decide)).trans h0⟩,
    (withNewPage_file_ne d (by decide)).trans h1, _, withNewPage_file_two d, holds_new _⟩

/-- A tuple that fits is appended. -/
theorem addTuple (h : TablePage schema slots d) {args : AddTupleArgs} (hfits : Fits d args) :
    ∃ ptr d', SomeDB.addTuple args d = (.ok (some ptr), d') ∧
      TablePage schema (slots ++ [⟨tupleBytes args, false⟩]) d' ∧
      ∀ p, p ≠ 0 → p ≠ 2 → d'.file p = d.file p := by
  obtain ⟨free, hdir⟩ := h.directory
  obtain ⟨dir, h0⟩ := h.page0
  obtain ⟨page, h2, hholds⟩ := h.page2
  obtain ⟨schema', page', h1', h2', hvalid, hfit⟩ := hfits
  obtain rfl : schema = schema' := Option.some.inj (h.page1.symm.trans h1')
  obtain rfl : page = page' := Option.some.inj (h2.symm.trans h2')
  have hstart := hholds.freeStart
  have hend := hholds.freeEnd
  have hsize : (tupleBytes args).length = (tupleSize args).toNat := by
    rw [tupleSize_toNat, Nat.mod_eq_of_lt (by omega)]
  obtain ⟨hstore, hholds'⟩ := hholds.storeTuple hsize (by omega)
  obtain ⟨d', hrun, hdir', hfile⟩ := addTuple_ok hdir h0 h1' h2 hvalid (by omega) hstore
  refine ⟨_, d', hrun, ⟨⟨_, hdir'⟩, ⟨_, by rw [hfile]; exact Disk.write_same ..⟩, ?_, ⟨_, ?_, hholds'⟩⟩, ?_⟩
  · rw [hfile, Disk.write_ne _ _ (by decide), Disk.write_ne _ _ (by decide), h1']
  · rw [hfile, Disk.write_ne _ _ (by decide), Disk.write_same]
  · intro p hp0 hp2
    rw [hfile, Disk.write_ne _ _ hp0, Disk.write_ne _ _ hp2]

/-- A tuple is marked as removed. -/
theorem removeTuple (h : TablePage schema slots d) {i : Nat} (hi : i < slots.length) :
    ∃ d', SomeDB.removeTuple ⟨2, UInt32.ofNat i⟩ d = (.ok (), d') ∧
      TablePage schema (dropSlot slots i) d' := by
  obtain ⟨dir, h0⟩ := h.page0
  obtain ⟨page, h2, hholds⟩ := h.page2
  obtain ⟨page', hmark, hholds'⟩ := hholds.markRemoved hi
  refine ⟨{ d with file := d.file.write 2 page' }, @removeTuple_ok d ⟨2, UInt32.ofNat i⟩ page page' h2 hmark,
    h.directory, ⟨dir, ?_⟩, ?_, page', ?_, hholds'⟩
  · exact (Disk.write_ne d.file page' (show (0 : PageId) ≠ 2 by decide)).trans h0
  · exact (Disk.write_ne d.file page' (show (1 : PageId) ≠ 2 by decide)).trans h.page1
  · exact Disk.write_same d.file 2 page'

/-- A tuple is read. -/
theorem getTuple (h : TablePage schema slots d) {i : Nat} {s : Slot} (hi : slots[i]? = some s) :
    (s.removed = true → SomeDB.getTuple ⟨2, UInt32.ofNat i⟩ d = (.ok none, d)) ∧
      (s.removed = false → ∃ page off, SomeDB.getTuple ⟨2, UInt32.ofNat i⟩ d = (.ok (some (page, off)), d) ∧
        off + s.bytes.length ≤ 4096 ∧ page.slice off s.bytes.length = s.bytes) := by
  obtain ⟨page, h2, hholds⟩ := h.page2
  obtain ⟨p, hp, hoff, -⟩ := hholds.extractTuplePtr (List.getElem?_eq_some_iff.mp hi).1
  have hslot := hholds.offset i s hi
  have hrange := hholds.tuple_range hi
  have hend := hholds.freeEnd
  have hroom := hholds.room
  have hget : SomeDB.getTuple ⟨2, UInt32.ofNat i⟩ d =
      (if p.startOffset = 0 then pure none else pure (some (page, p.startOffset.toNat)) :
        HeapM (Option (Page × Nat))) d := by
    rw [SomeDB.getTuple, Prog.bind_ok (readFile_ok h2), hp, Prog.lift_ok_bind]
  have hzero : p.startOffset = 0 ↔ slotOffset page i = 0 := by
    rw [← hoff, ← UInt16.toNat_inj]
    rfl
  constructor
  · intro hs
    rw [hget, if_pos (hzero.mpr (by rw [hslot, if_pos hs]))]
    rfl
  · intro hs
    have hslot' : slotOffset page i = tupleStart slots i := by rw [hslot, hs]; rfl
    refine ⟨page, p.startOffset.toNat, ?_, ?_, ?_⟩
    · rw [hget, if_neg (fun h0 => by have := hzero.mp h0; omega)]
      rfl
    · omega
    · rw [hoff, hslot']
      exact hholds.bytes i s hi

end TablePage

/-! ## Additions and removals -/

/-- A call on a page. -/
inductive PageOp where
  | add (args : AddTupleArgs)
  | remove (slotNum : UInt32)

def pageOp (pid : PageId) : PageOp → HeapM Unit
  | .add args => do let _ ← addTuple args
  | .remove slotNum => removeTuple ⟨pid, slotNum⟩

/-- The tuples that are added, in their order. -/
def added (ops : List PageOp) : List AddTupleArgs :=
  ops.filterMap fun op => match op with
    | .add args => some args
    | .remove _ => none

/-- Every tuple that is removed was added before. -/
def RemovesAdded (ops : List PageOp) : Prop :=
  ∀ pre slotNum, pre ++ [.remove slotNum] <+: ops → slotNum.toNat < (added pre).length

namespace RemovesAdded

variable {ops : List PageOp}

theorem nil : RemovesAdded [] := fun pre slotNum hpre => by simp at hpre

theorem add (h : RemovesAdded ops) (args : AddTupleArgs) : RemovesAdded (ops ++ [.add args]) := by
  intro pre slotNum hpre
  rcases List.prefix_concat_iff.mp hpre with heq | hpre
  · have hlast := (List.append_inj' heq rfl).2
    simp at hlast
  · exact h pre slotNum hpre

theorem remove (h : RemovesAdded ops) {i : UInt32} (hi : i.toNat < (added ops).length) :
    RemovesAdded (ops ++ [.remove i]) := by
  intro pre slotNum hpre
  rcases List.prefix_concat_iff.mp hpre with heq | hpre
  · obtain ⟨rfl, hlast⟩ := List.append_inj' heq rfl
    obtain rfl : slotNum = i := by simpa using hlast
    exact hi
  · exact h pre slotNum hpre

end RemovesAdded

/-- Every tuple that is added fits. -/
def PageOp.Fits (d : DiskManager) : PageOp → Prop
  | .add args => SomeDB.Fits d args
  | .remove _ => True

/-- The slots after the calls `ops`. -/
structure Slots (ops : List PageOp) (slots : List Slot) : Prop where
  bytes : slots.map (·.bytes) = (added ops).map tupleBytes
  removed : ∀ (i : Nat) (s : Slot), slots[i]? = some s →
    (s.removed = true ↔ .remove (UInt32.ofNat i) ∈ ops)

namespace Slots

variable {ops : List PageOp} {slots : List Slot}

theorem length (h : Slots ops slots) : slots.length = (added ops).length := by
  have := congrArg List.length h.bytes
  simpa using this

theorem nil : Slots [] [] := ⟨rfl, by simp⟩

theorem add (h : Slots ops slots) (args : AddTupleArgs) (hnew : .remove (UInt32.ofNat slots.length) ∉ ops) :
    Slots (ops ++ [.add args]) (slots ++ [⟨tupleBytes args, false⟩]) := by
  refine ⟨?_, fun i s hi => ?_⟩
  · rw [added, List.filterMap_append, List.map_append, List.map_append, h.bytes]
    rfl
  · have hmem : ∀ {i : UInt32}, PageOp.remove i ∈ ops ++ [.add args] ↔ .remove i ∈ ops := by simp
    rw [hmem]
    rcases getElem?_concat_cases hi with ⟨-, hi⟩ | ⟨rfl, rfl⟩
    · exact h.removed i s hi
    · simpa using hnew

theorem remove (h : Slots ops slots) {i : Nat} (hlen : slots.length < 4294967296) (hi : i < slots.length) :
    Slots (ops ++ [.remove (UInt32.ofNat i)]) (dropSlot slots i) := by
  refine ⟨?_, fun j s hj => ?_⟩
  · rw [added, List.filterMap_append, List.map_append, ← added, ← h.bytes]
    apply List.ext_getElem
    · simp [dropSlot]
    · intro k h₁ h₂
      simp only [dropSlot, List.getElem_map, List.getElem_modify]
      split <;> simp
  · simp only [dropSlot, List.getElem?_modify] at hj
    obtain ⟨s₀, hs₀, rfl⟩ := Option.map_eq_some_iff.mp hj
    have hj' := (List.getElem?_eq_some_iff.mp hs₀).1
    have hinj : UInt32.ofNat j = UInt32.ofNat i ↔ i = j := by
      rw [← UInt32.toNat_inj, UInt32.toNat_ofNat', UInt32.toNat_ofNat']
      omega
    rw [List.mem_append, List.mem_singleton, PageOp.remove.injEq, hinj]
    by_cases hij : i = j
    · simp [hij]
    · simp [hij, h.removed j s₀ hs₀]

end Slots

/-- A call keeps the relation between the calls so far and the page. -/
theorem Slots.step {schema : Page} {is ops : List PageOp} {slots : List Slot} {d : DiskManager} {op : PageOp}
    (hslots : Slots is slots) (htable : TablePage schema slots d) (hremoves : RemovesAdded ops)
    (hop : is ++ [op] <+: ops) (hfit : op.Fits d) :
    ∃ u d', pageOp 2 op d = (.ok u, d') ∧
      ∃ slots', Slots (is ++ [op]) slots' ∧ TablePage schema slots' d' := by
  have hlen : slots.length < 4294967296 := by
    obtain ⟨page, -, hholds⟩ := htable.page2
    have := hholds.room
    omega
  cases op with
  | add args =>
    obtain ⟨ptr, d', hadd, htable', -⟩ := htable.addTuple hfit
    refine ⟨(), d', by rw [pageOp, Prog.bind_ok hadd]; rfl, _, hslots.add args ?_, htable'⟩
    -- a removed slot is below the number of tuples so far
    intro hmem
    obtain ⟨pre, post, rfl⟩ := List.append_of_mem hmem
    have hlt := hremoves pre (UInt32.ofNat slots.length)
      (List.IsPrefix.trans ⟨post ++ [.add args], by simp⟩ hop)
    have hle : (added pre).length ≤ slots.length := by
      rw [hslots.length, added, added, List.filterMap_append, List.length_append]
      omega
    rw [UInt32.toNat_ofNat', Nat.mod_eq_of_lt (by omega)] at hlt
    omega
  | remove slotNum =>
    have hlt := hremoves is slotNum hop
    rw [← hslots.length] at hlt
    obtain ⟨d', hremove, htable'⟩ := htable.removeTuple hlt
    have hslots' := hslots.remove hlen hlt
    rw [UInt32.ofNat_toNat] at hremove hslots'
    exact ⟨(), d', hremove, _, hslots', htable'⟩

/-- A page just started, after a run of additions of tuples that fit and of removals of tuples that were
added. -/
theorem tablePage_run {columns : Columns} {mem d₀ d₁ d₂ : DiskManager} {u : Unit} {pid : PageId}
    (hcreate : createTable columns mem = (.ok u, d₀)) {pre : List HeapOp} {us : List Unit}
    (hpre : Prog.runAll heapOp pre d₀ = (.ok us, d₁)) (hnew : newHeapPage d₁ = (.ok pid, d₂))
    {ops : List PageOp} (hremoves : RemovesAdded ops)
    (hfits : Prog.Meets (pageOp pid) PageOp.Fits ops d₂) :
    pid = 2 ∧ ∃ rs d schema slots, Prog.runAll (pageOp pid) ops d₂ = (.ok rs, d) ∧ Slots ops slots ∧
      TablePage schema slots d := by
  obtain ⟨free, hdir, -, ⟨dir, h0⟩, schema, h1⟩ := heap_run_directory hcreate hpre
  obtain ⟨rfl, -, htable⟩ := TablePage.of_newHeapPage hdir h0 h1 hnew
  obtain ⟨rs, d, hrun, slots, hslots, htable'⟩ := Prog.runAll_inv
    (fun ops _ d => ∃ slots, Slots ops slots ∧ TablePage schema slots d)
    (fun is bs d op hop ⟨slots, hslots, htable⟩ hfit => hslots.step htable hremoves hop hfit)
    ⟨[], Slots.nil, htable⟩ hfits
  exact ⟨rfl, rs, d, schema, slots, hrun, hslots, htable'⟩

/-- **The slots of a page.** On a page just started by `new_heap_page`, any run of additions of tuples that
fit and of removals of tuples that were added returns, and then `get_tuple` returns null for the tuples
that were removed, and a pointer to the bytes that were added for the others. -/
theorem tuple_run_slots {columns : Columns} {mem d₀ d₁ d₂ : DiskManager} {u : Unit} {pid : PageId}
    (hcreate : createTable columns mem = (.ok u, d₀)) {pre : List HeapOp} {us : List Unit}
    (hpre : Prog.runAll heapOp pre d₀ = (.ok us, d₁)) (hnew : newHeapPage d₁ = (.ok pid, d₂))
    {ops : List PageOp} (hremoves : RemovesAdded ops)
    (hfits : Prog.Meets (pageOp pid) PageOp.Fits ops d₂) :
    ∃ rs d, Prog.runAll (pageOp pid) ops d₂ = (.ok rs, d) ∧
      ∀ (i : Nat) (args : AddTupleArgs), (added ops)[i]? = some args →
        (.remove (UInt32.ofNat i) ∈ ops → getTuple ⟨pid, UInt32.ofNat i⟩ d = (.ok none, d)) ∧
        (.remove (UInt32.ofNat i) ∉ ops →
          ∃ page off, getTuple ⟨pid, UInt32.ofNat i⟩ d = (.ok (some (page, off)), d) ∧
            off + (tupleBytes args).length ≤ 4096 ∧
            page.slice off (tupleBytes args).length = tupleBytes args) := by
  obtain ⟨rfl, rs, d, schema, slots, hrun, hslots, htable'⟩ := tablePage_run hcreate hpre hnew hremoves hfits
  refine ⟨rs, d, hrun, fun i args hi => ?_⟩
  have hbytes := congrArg (·[i]?) hslots.bytes
  simp only [List.getElem?_map, hi, Option.map_some] at hbytes
  obtain ⟨s, hs, hsb⟩ := Option.map_eq_some_iff.mp hbytes
  have hremoved := hslots.removed i s hs
  have hget := htable'.getTuple hs
  rw [← hsb]
  exact ⟨fun hmem => hget.1 (hremoved.mpr hmem),
    fun hmem => hget.2 (Bool.eq_false_iff.mpr fun hr => hmem (hremoved.mp hr))⟩

/-! ## Tuples that have room together -/

/-- What a tuple takes of a page with its pointer. -/
def tupleSpace (args : AddTupleArgs) : Nat := TUPLE_PTR_SIZE + (tupleBytes args).length

/-- The tuples that are added have room in a new page. -/
def FitTogether (ops : List PageOp) : Prop := ((added ops).map tupleSpace).sum ≤ 4090

section Together

variable {schema : Page} {slots : List Slot} {d : DiskManager} {is ops : List PageOp}

theorem Slots.space (h : Slots is slots) : ((added is).map tupleSpace).sum = 4 * slots.length + used slots := by
  have hlen := congrArg (List.map List.length) h.bytes
  rw [List.map_map, List.map_map] at hlen
  have hused : used slots = ((added is).map fun args => (tupleBytes args).length).sum := congrArg List.sum hlen
  rw [hused, h.length]
  induction added is with
  | nil => rfl
  | cons args argss ih =>
    simp only [List.map_cons, List.sum_cons, List.length_cons, ih, tupleSpace, TUPLE_PTR_SIZE]
    omega

/-- Of tuples that have room together, the next one fits. -/
theorem TablePage.fits (htable : TablePage schema slots d) (hslots : Slots is slots) {args : AddTupleArgs}
    (hop : is ++ [.add args] <+: ops) (hvalid : validate schema args = .ok true) (hroom : FitTogether ops) :
    Fits d args := by
  obtain ⟨page, h2, hholds⟩ := htable.page2
  have hstart := hholds.freeStart
  have hend := hholds.freeEnd
  have hspace := hslots.space
  have hle : ((added is).map tupleSpace).sum + tupleSpace args ≤ 4090 := by
    obtain ⟨post, rfl⟩ := hop
    unfold FitTogether added at hroom
    rw [List.filterMap_append, List.filterMap_append, List.map_append, List.map_append, List.sum_append,
      List.sum_append] at hroom
    have hlast : ((added [.add args]).map tupleSpace).sum = tupleSpace args := Nat.add_zero _
    unfold added at hlast ⊢
    omega
  simp only [hspace, tupleSpace, TUPLE_PTR_SIZE] at hle
  exact ⟨schema, page, htable.page1, h2, hvalid, by omega⟩

/-- On a new page they fit one after the other. -/
theorem TablePage.meets_fits (htable : TablePage schema [] d) (hremoves : RemovesAdded ops)
    (hvalid : ∀ args ∈ added ops, validate schema args = .ok true) (hroom : FitTogether ops) :
    Prog.Meets (pageOp 2) PageOp.Fits ops d := by
  -- by induction on the calls that are left
  suffices h : ∀ (rest is : List PageOp) (slots : List Slot) (d : DiskManager), is ++ rest = ops → Slots is slots →
      TablePage schema slots d → Prog.Meets (pageOp 2) PageOp.Fits rest d from
    h ops [] [] d rfl Slots.nil htable
  intro rest
  induction rest with
  | nil => exact fun _ _ _ _ _ _ => trivial
  | cons op rest ih =>
    intro is slots d heq hslots htable
    have heq' : is ++ [op] ++ rest = ops := by rw [List.append_assoc]; exact heq
    have hfit : op.Fits d := by
      cases op with
      | remove slotNum => trivial
      | add args => exact htable.fits hslots ⟨rest, heq'⟩ (hvalid args (by simp [← heq, added])) hroom
    obtain ⟨u, d', hrun, slots', hslots', htable'⟩ := hslots.step htable hremoves ⟨rest, heq'⟩ hfit
    refine ⟨hfit, ?_⟩
    rw [hrun]
    exact ih (is ++ [op]) slots' d' heq' hslots' htable'

end Together

/-- A tuple with the other value. -/
def clearArgs : AddTupleArgs := ⟨[([102], .boolean 0)], by decide⟩

/-- Two tuples are added, and the first one is removed again. -/
def flagOps : List PageOp := [.add flagArgs, .add clearArgs, .remove 0]

theorem removesAdded_flag : RemovesAdded flagOps :=
  ((RemovesAdded.nil.add flagArgs).add clearArgs).remove (by decide)

theorem meets_flag {d : DiskManager} (h : TablePage flagSchema [] d) : Prog.Meets (pageOp 2) PageOp.Fits flagOps d :=
  h.meets_fits removesAdded_flag (by decide) (by rw [FitTogether]; decide)

theorem tuple_run_slots_flag : ∃ d₀ d₂ rs d page off, createTable flagColumns blankMemory = (.ok (), d₀) ∧
    newHeapPage d₀ = (.ok 2, d₂) ∧
    Prog.runAll (pageOp 2) [.add flagArgs, .add clearArgs, .remove 0] d₂ = (.ok rs, d) ∧
    getTuple ⟨2, 0⟩ d = (.ok none, d) ∧ getTuple ⟨2, 1⟩ d = (.ok (some (page, off)), d) ∧ page.slice off 1 = [0] := by
  obtain ⟨d₀, hcreate, hcreated⟩ := createTable_of_schema blankMemory schemaPage_flag
  have hnew := newHeapPage_ok hcreated.directory
  obtain ⟨-, -, htable⟩ := TablePage.of_newHeapPage hcreated.directory hcreated.page0 hcreated.page1 hnew
  have hpre : Prog.runAll heapOp [] d₀ = (.ok [], d₀) := rfl
  obtain ⟨rs, d, hrun, hget⟩ := tuple_run_slots hcreate hpre hnew removesAdded_flag (meets_flag htable)
  obtain ⟨page, off, hlive, -, hbytes⟩ := (hget 1 clearArgs rfl).2 (by simp [flagOps])
  exact ⟨d₀, _, rs, d, page, off, hcreate, hnew, hrun, (hget 0 flagArgs rfl).1 (by simp [flagOps]), hlive, hbytes⟩

/-! ## Additions that fit -/

/-- The page is well formed and holds the tuples: the slot array and the tuples are apart from each other and
from the free space, and every tuple has its bytes. -/
structure PageSafe (page : Page) (tuples : List (List UInt8)) : Prop where
  start : 5 ≤ (extractHeader page).freeStart.toNat
  free : (extractHeader page).freeStart.toNat ≤ (extractHeader page).freeEnd.toNat
  last : (extractHeader page).freeEnd.toNat ≤ 4095
  slots : 5 + 4 * tuples.length ≤ (extractHeader page).freeStart.toNat
  region : ∀ i < tuples.length, (extractHeader page).freeEnd.toNat ≤ slotOffset page i ∧
    slotOffset page i + slotSize page i ≤ 4095
  apart : ∀ i j, i < j → j < tuples.length → slotOffset page i + slotSize page i ≤ slotOffset page j ∨
    slotOffset page j + slotSize page j ≤ slotOffset page i
  bytes : ∀ (i : Nat) (t : List UInt8), tuples[i]? = some t →
    page.slice (slotOffset page i) (slotSize page i) = t

/-- A page whose tuples are all live is well formed. -/
theorem Holds.pageSafe {page : Page} {tuples : List (List UInt8)}
    (h : Holds page (tuples.map fun t => ⟨t, false⟩)) : PageSafe page tuples := by
  have hstart := h.freeStart
  have hend := h.freeEnd
  have hroom := h.room
  rw [List.length_map] at hstart hroom
  have hget : ∀ {i : Nat} {t : List UInt8}, tuples[i]? = some t →
      (tuples.map fun t => (⟨t, false⟩ : Slot))[i]? = some ⟨t, false⟩ := by
    intro i t hi
    rw [List.getElem?_map, hi]
    rfl
  have hoff : ∀ {i : Nat} {t : List UInt8}, tuples[i]? = some t →
      slotOffset page i = tupleStart (tuples.map fun t => ⟨t, false⟩) i ∧ slotSize page i = t.length :=
    fun hi => ⟨by rw [h.offset _ _ (hget hi)]; rfl, h.size _ _ (hget hi)⟩
  refine ⟨by omega, by omega, by omega, by omega, fun i hi => ?_, fun i j hij hj => .inr ?_,
    fun i t hi => ?_⟩
  · have hi' := List.getElem?_eq_getElem hi
    obtain ⟨h₁, h₂⟩ := hoff hi'
    obtain ⟨h₃, h₄⟩ := h.tuple_range (hget hi')
    simp only at h₄
    rw [h₁, h₂]
    omega
  · have hi' := List.getElem?_eq_getElem (Nat.lt_trans hij hj)
    have hj' := List.getElem?_eq_getElem hj
    rw [(hoff hj').1, (hoff hj').2, (hoff hi').1]
    exact h.tuple_disjoint (hget hi') (hget hj') hij
  · rw [(hoff hi).1, (hoff hi).2]
    exact h.bytes i _ (hget hi)

/-- Does the tuple conform to the schema? -/
def accepts (schema : Page) (args : AddTupleArgs) : Bool :=
  match validate schema args with
  | .ok conforms => conforms
  | .error _ => false

/-- The tuple fits, or it is rejected. -/
def AddSafe (d : DiskManager) (args : AddTupleArgs) : Prop :=
  Fits d args ∨ ∃ schema, d.file 1 = some schema ∧ validate schema args = .ok false ∧
    (tupleBytes args).length < 65536

/-- The tuples of a run on the table with this schema. -/
def storedTuples (schema : Page) (argss : List AddTupleArgs) : List (List UInt8) :=
  (argss.filter (accepts schema)).map tupleBytes

theorem TablePage.add_step {schema : Page} {argss : List AddTupleArgs} {d : DiskManager}
    {args : AddTupleArgs}
    (h : TablePage schema ((storedTuples schema argss).map fun t => ⟨t, false⟩) d) (hsafe : AddSafe d args) :
    ∃ r d', SomeDB.addTuple args d = (.ok r, d') ∧
      TablePage schema ((storedTuples schema (argss ++ [args])).map fun t => ⟨t, false⟩) d' ∧
      ∀ p, p ≠ 0 → p ≠ 2 → d'.file p = d.file p := by
  rw [storedTuples, List.filter_append]
  rcases hsafe with hfits | ⟨schema', h1, hvalid, hlt⟩
  · obtain ⟨ptr, d', hadd, htable', hkeep⟩ := h.addTuple hfits
    obtain ⟨schema', -, h1, -, hvalid, -⟩ := hfits
    obtain rfl : schema = schema' := Option.some.inj (h.page1.symm.trans h1)
    have haccepts : accepts schema args = true := by rw [accepts, hvalid]
    refine ⟨some ptr, d', hadd, ?_, hkeep⟩
    simpa [haccepts, storedTuples] using htable'
  · obtain rfl : schema = schema' := Option.some.inj (h.page1.symm.trans h1)
    have haccepts : accepts schema args = false := by rw [accepts, hvalid]
    obtain ⟨free, hdir⟩ := h.directory
    obtain ⟨page, h2, -⟩ := h.page2
    refine ⟨none, d, addTuple_rejects hdir h1 h2 hvalid hlt, ?_, fun _ _ _ => rfl⟩
    simpa [haccepts, storedTuples] using h

/-- **Slotted pages.** If every tuple that is added to a new table with a new page fits or is rejected,
every user page of the table is well formed and holds the tuples. -/
theorem add_run_pageSafe {columns : Columns} {schema : Page} {mem d₀ d₁ : DiskManager} {u : Unit}
    {pid : PageId} (hcreate : createTable columns mem = (.ok u, d₀))
    (hschema : schemaPage columns = .ok schema) (hnew : newHeapPage d₀ = (.ok pid, d₁))
    {argss : List AddTupleArgs} (hsafe : Prog.Meets addTuple AddSafe argss d₁) :
    ∃ rs d, Prog.runAll addTuple argss d₁ = (.ok rs, d) ∧ d.file 2 ≠ none ∧
      ∀ p page, 2 ≤ p.toNat → d.file p = some page → PageSafe page (storedTuples schema argss) := by
  obtain ⟨schema', hschema', hcreated⟩ := createTable_eq_ok hcreate
  rw [hschema] at hschema'
  cases hschema'
  obtain ⟨rfl, rfl, htable⟩ := TablePage.of_newHeapPage hcreated.directory hcreated.page0 hcreated.page1 hnew
  obtain ⟨rs, d, hrun, htable', hrest⟩ := Prog.runAll_inv
    (fun argss _ d => TablePage schema ((storedTuples schema argss).map fun t => ⟨t, false⟩) d ∧
      ∀ p, p ≠ 0 → p ≠ 1 → p ≠ 2 → d.file p = none)
    (fun is bs d args _ ⟨htable, hrest⟩ hsafe => by
      obtain ⟨r, d', hadd, htable', hkeep⟩ := htable.add_step hsafe
      refine ⟨r, d', hadd, htable', fun p h0 h1 h2 => ?_⟩
      rw [hkeep p h0 h2, hrest p h0 h1 h2])
    ⟨htable, fun p h0 h1 h2 => by rw [withNewPage_file_ne d₀ h2, hcreated.rest p h0 h1]⟩ hsafe
  obtain ⟨page₂, h2, hholds⟩ := htable'.page2
  refine ⟨rs, d, hrun, by rw [h2]; simp, fun p page hp hpage => ?_⟩
  by_cases hp2 : p = 2
  · subst hp2
    rw [h2] at hpage
    cases hpage
    exact hholds.pageSafe
  · have hnone := hrest p (by rintro rfl; simp at hp) (by rintro rfl; simp at hp) hp2
    rw [hnone] at hpage
    cases hpage

/-- Two tuples, and between them one with an integer in the place of the flag, which is rejected. -/
def wrongArgs : AddTupleArgs := ⟨[([102], .integer 1)], by decide⟩

theorem add_run_pageSafe_flag : ∃ d₀ d₁ rs d page, createTable flagColumns blankMemory = (.ok (), d₀) ∧
    newHeapPage d₀ = (.ok 2, d₁) ∧ Prog.runAll addTuple [flagArgs, wrongArgs, clearArgs] d₁ = (.ok rs, d) ∧
    d.file 2 = some page ∧ PageSafe page [[1], [0]] := by
  obtain ⟨d₀, hcreate, hcreated⟩ := createTable_of_schema blankMemory schemaPage_flag
  have hnew := newHeapPage_ok hcreated.directory
  obtain ⟨-, -, htable⟩ := TablePage.of_newHeapPage hcreated.directory hcreated.page0 hcreated.page1 hnew
  have hsafe : Prog.Meets addTuple AddSafe [flagArgs, wrongArgs, clearArgs] d₀.withNewPage := by
    have hfits := htable.fits Slots.nil
      (show [] ++ [PageOp.add flagArgs] <+: [.add flagArgs] from ⟨[], rfl⟩) validate_flag (by rw [FitTogether]; decide)
    obtain ⟨ptr, d₁, hadd, htable₁, -⟩ := htable.addTuple hfits
    have hwrong : AddSafe d₁ wrongArgs := .inr ⟨flagSchema, htable₁.page1, by decide, by decide⟩
    obtain ⟨r, d₂, hreject, htable₂, -⟩ := @TablePage.add_step flagSchema [flagArgs] d₁ wrongArgs htable₁ hwrong
    have hfits₂ := htable₂.fits (Slots.nil.add flagArgs (by simp))
      (show [PageOp.add flagArgs] ++ [.add clearArgs] <+: [.add flagArgs, .add clearArgs] from ⟨[], rfl⟩) (by decide)
      (by rw [FitTogether]; decide)
    refine ⟨.inl hfits, ?_⟩
    rw [hadd]
    refine ⟨hwrong, ?_⟩
    rw [hreject]
    refine ⟨.inl hfits₂, ?_⟩
    split <;> trivial
  obtain ⟨rs, d, hrun, hsome, hpages⟩ := add_run_pageSafe hcreate schemaPage_flag hnew hsafe
  obtain ⟨page, hpage⟩ := Option.ne_none_iff_exists'.mp hsome
  have hstored : storedTuples flagSchema [flagArgs, wrongArgs, clearArgs] = [[1], [0]] := by decide
  exact ⟨d₀, _, rs, d, page, hcreate, hnew, hrun, hpage,
    hstored ▸ hpages 2 page (Nat.le_refl 2) hpage⟩

/-- A table with one column of strings, and a string that is too long for a page. -/
def textColumns : Columns := ⟨[⟨[116], .string, by decide⟩], by decide⟩
def textArgs (text : List UInt8) : AddTupleArgs := ⟨[([116], .string text)], by simp⟩
def longArgs : AddTupleArgs := textArgs (List.replicate 4085 97)

def textSchema : Page := (Block.zero.blit 0 [1]).blit 1 [1, 116, 2]

theorem tupleBytes_longArgs : (tupleBytes longArgs).length = 4087 := by
  have hlen : ∀ text, text.length < 65536 → (tupleBytes (textArgs text)).length = 2 + text.length := by
    intro text htext
    simp [tupleBytes, textArgs, ColumnValue.bytes, Nat.mod_eq_of_lt htext]
  rw [longArgs, hlen _ (by rw [List.length_replicate]; omega), List.length_replicate]

/-- The tuple is stored in a new page, behind the end of its free space. -/
theorem longArgs_run : ∃ d₀ d₁ r d page, createTable textColumns blankMemory = (.ok (), d₀) ∧
    newHeapPage d₀ = (.ok 2, d₁) ∧ (extractHeader page).freeStart = 9 ∧ (extractHeader page).freeEnd = 8 ∧
    d₁.file 2 = some (newHeapPageBuf (d₀.junk 0)) ∧ (∀ p, p ≠ 0 → p ≠ 1 → p ≠ 2 → d₁.file p = none) ∧
    addTuple longArgs d₁ = (.ok (some r), d) ∧ d.file 2 = some page := by
  obtain ⟨d₀, hcreate, hcreated⟩ := createTable_of_schema blankMemory
    (show schemaPage textColumns = .ok textSchema from rfl)
  have hbytes := tupleBytes_longArgs
  have hsize : (tupleBytes longArgs).length = (tupleSize longArgs).toNat := by
    rw [tupleSize_toNat, hbytes]
  have hsize' : tupleSize longArgs = 4087 := UInt16.toNat_inj.mp (by rw [← hsize, hbytes]; rfl)
  have hheader : extractHeader (newHeapPageBuf (d₀.junk 0)) = ⟨5, 4095, 0⟩ := by
    rw [newHeapPageBuf, extractHeader_construct]
  have hstore := storeTuple_ok hsize
    (show (extractHeader (newHeapPageBuf (d₀.junk 0))).freeStart.toNat + 4 ≤ 4096 by rw [hheader]; decide)
    (by rw [hheader, ← hsize, hbytes]; decide) (by rw [hheader]; decide)
  obtain ⟨d, hadd, -, hfile⟩ := addTuple_ok (d := d₀.withNewPage) hcreated.directory
    ((withNewPage_file_ne d₀ (by decide)).trans hcreated.page0)
    ((withNewPage_file_ne d₀ (by decide)).trans hcreated.page1) (withNewPage_file_two d₀) rfl
    (by omega) hstore
  refine ⟨d₀, _, _, d, withTuple (newHeapPageBuf (d₀.junk 0)) (tupleBytes longArgs) (tupleSize longArgs), hcreate,
    newHeapPage_ok hcreated.directory, ?_, ?_, withNewPage_file_two d₀,
    fun p h0 h1 h2 => (withNewPage_file_ne d₀ h2).trans (hcreated.rest p h0 h1), hadd,
    by rw [hfile, Disk.write_ne _ _ (by decide), Disk.write_same]⟩
  · rw [withTuple, extractHeader_construct, hheader]
    rfl
  · rw [withTuple, extractHeader_construct, hheader, hsize']
    rfl

/-- The tuple is written over the slot array, and the free space ends before it starts. -/
theorem add_run_pageSafe_fails : ∃ d₀ d₁ r d page, createTable textColumns blankMemory = (.ok (), d₀) ∧
    newHeapPage d₀ = (.ok 2, d₁) ∧ validate textSchema longArgs = .ok true ∧
    addTuple longArgs d₁ = (.ok (some r), d) ∧ d.file 2 = some page ∧
    ∀ tuples, ¬ PageSafe page tuples := by
  obtain ⟨d₀, d₁, r, d, page, hcreate, hnew, hstart, hend, -, -, hadd, hpage⟩ := longArgs_run
  refine ⟨d₀, d₁, r, d, page, hcreate, hnew, rfl, hadd, hpage, fun tuples hsafe => ?_⟩
  have hfree := hsafe.free
  rw [hstart, hend] at hfree
  exact absurd hfree (by decide)

end SomeDB
