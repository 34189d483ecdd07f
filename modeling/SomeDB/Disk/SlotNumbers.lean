import SomeDB.Disk.TupleRuns

/-!
# Slot numbers

Nothing compares a slot number with the number of slots. `get_tuple` and `remove_tuple` take the four bytes at 5
plus 4 s, where 4 s is taken modulo 2^32, for the pointer of the tuple s: what lies behind the slots, the bytes of
a tuple, bytes past the page, or, from 2^30 on, the pointer of another tuple. `rid_run_safe` says for which numbers
this does no harm.
-/

namespace SomeDB

open Lib

/-- The page has the slot `i`. -/
def HasSlot (page : Page) (i : Nat) : Prop := 5 + 4 * (i + 1) ≤ (extractHeader page).freeStart.toNat

/-- The page `page'` has the slots of `page` but for the slot `i`, and the bytes of its tuples. -/
structure OtherSlotsKept (page page' : Page) (i : Nat) : Prop where
  slots : ∀ j, HasSlot page j → j ≠ i → page'.slice (5 + 4 * j) 4 = page.slice (5 + 4 * j) 4
  tuples : ∀ j, HasSlot page j → slotOffset page j ≠ 0 →
    page'.slice (slotOffset page j) (slotSize page j) = page.slice (slotOffset page j) (slotSize page j)

/-- `get_tuple` returns null unless the tuple is live, and `remove_tuple` changes nothing but the slot. -/
def RidSafe (d : DiskManager) (rid : RID) : Prop :=
  (¬ LiveTuple d rid → (getTuple rid d).1 = .ok none) ∧
    ∃ d' page page', removeTuple rid d = (.ok (), d') ∧ d.file rid.pid = some page ∧
      d'.file rid.pid = some page' ∧ OtherSlotsKept page page' rid.slotNum.toNat

/-- The first two of the bytes that are taken for the tuple pointer lie in the page and are zero. -/
def ReadsZero (page : Page) (slotNum : UInt32) : Prop :=
  tuplePtrOffset slotNum + 4 ≤ 4096 ∧ page.byte (tuplePtrOffset slotNum) = 0 ∧
    page.byte (tuplePtrOffset slotNum + 1) = 0

/-- The slot number is that of a slot of the page, or zeros are read for it. -/
def SlotOrZero (d : DiskManager) (rid : RID) : Prop :=
  ∃ page, d.file rid.pid = some page ∧ (HasSlot page rid.slotNum.toNat ∨ ReadsZero page rid.slotNum)

section Page

variable {d : DiskManager} {page : Page} {rid : RID} {slotNum : UInt32}

theorem decodeUint16_slice_eq_zero {off : Nat} :
    decodeUint16 (page.slice off 2) = 0 ↔ page.byte off = 0 ∧ page.byte (off + 1) = 0 := by
  have hslice : page.slice off 2 = [page.byte off, page.byte (off + 1)] := by
    rw [Block.slice_succ, Block.slice_one]
  rw [hslice, ← UInt16.toNat_inj, decodeUint16_toNat, ← UInt8.toNat_inj, ← UInt8.toNat_inj]
  simp only [UInt16.toNat_zero, UInt8.toNat_zero]
  omega

theorem extractTuplePtr_ok (hle : tuplePtrOffset slotNum + 4 ≤ 4096) : extractTuplePtr page slotNum =
    .ok ⟨decodeUint16 (page.slice (tuplePtrOffset slotNum) 2),
      decodeUint16 (page.slice (tuplePtrOffset slotNum + 2) 2)⟩ := if_pos hle

/-- `get_tuple` returns null exactly if zeros are read. -/
theorem getTuple_none_iff (hpage : d.file rid.pid = some page) :
    (getTuple rid d).1 = .ok none ↔ ReadsZero page rid.slotNum := by
  rw [getTuple, Prog.bind_ok (readFile_ok hpage), ReadsZero, ← decodeUint16_slice_eq_zero]
  by_cases hle : tuplePtrOffset rid.slotNum + 4 ≤ 4096
  · rw [extractTuplePtr_ok hle, Prog.lift_ok_bind]
    by_cases h0 : decodeUint16 (page.slice (tuplePtrOffset rid.slotNum) 2) = 0
    · rw [if_pos h0]
      exact iff_of_true rfl ⟨hle, h0⟩
    · rw [if_neg h0]
      exact iff_of_false (fun h => by cases h) fun h => h0 h.2
  · have hptr : extractTuplePtr page rid.slotNum = .error .outOfBounds := if_neg hle
    rw [hptr]
    exact iff_of_false (fun h => by cases h) fun h => hle h.1

/-- What `remove_tuple` writes where the pointer lies in the page. -/
theorem markRemoved_eq (hle : tuplePtrOffset slotNum + 4 ≤ 4096) :
    markRemoved page slotNum = .ok (constructPageHeaderBuf
      (page.blit (tuplePtrOffset slotNum)
        (⟨0, decodeUint16 (page.slice (tuplePtrOffset slotNum + 2) 2)⟩ : TuplePtr).bytes)
      { extractHeader page with flags := (extractHeader page).flags ||| COMPACTABLE }) := by
  simp only [markRemoved, extractTuplePtr_ok hle, bind, Except.bind, constructPageTuplePtr]
  rw [memcpy_ok (by rw [tuplePtr_bytes_length]; exact hle)]

/-- Zeros are overwritten by zeros, and the size by itself. -/
theorem blit_of_readsZero (h : ReadsZero page slotNum) :
    page.blit (tuplePtrOffset slotNum)
      (⟨0, decodeUint16 (page.slice (tuplePtrOffset slotNum + 2) 2)⟩ : TuplePtr).bytes = page := by
  obtain ⟨hle, h0, h1⟩ := h
  generalize tuplePtrOffset slotNum = off at hle h0 h1 ⊢
  have hsize : encodeUint16 (decodeUint16 (page.slice (off + 2) 2)) = page.slice (off + 2) 2 := by
    rw [Block.slice_succ, Block.slice_one]
    exact encodeUint16_decodeUint16 ..
  have hbytes : (⟨0, decodeUint16 (page.slice (off + 2) 2)⟩ : TuplePtr).bytes = page.slice off 4 := by
    rw [TuplePtr.bytes, hsize, show (4 : Nat) = 1 + (1 + 2) from rfl, Block.slice_add, Block.slice_add,
      Block.slice_one, Block.slice_one, h0, h1, show off + 1 + 1 = off + 2 from rfl]
    have hzero : encodeUint16 0 = [0, 0] := by decide
    rw [hzero]
    rfl
  rw [hbytes]
  refine Block.ext fun i hi => ?_
  rw [Block.byte_blit _ _ _ _ hi]
  split
  · next hin =>
    rw [Block.slice_length] at hin
    rw [List.getD_eq_getElem?_getD, List.getElem?_eq_getElem (by rw [Block.slice_length]; omega),
      Option.getD_some, Block.getElem_slice]
    congr 1
    omega
  · rfl

end Page

/-! ## Pages with tuples -/

namespace Holds

variable {page : Page} {slots : List Slot} {i : Nat}

theorem hasSlot_iff (h : Holds page slots) : HasSlot page i ↔ i < slots.length := by
  rw [HasSlot, h.freeStart]
  omega

/-- The bytes of a live tuple lie behind the slots. -/
theorem live_range (h : Holds page slots) (hi : HasSlot page i) (hoff : slotOffset page i ≠ 0) :
    5 + 4 * slots.length ≤ slotOffset page i := by
  have hs := List.getElem?_eq_getElem (h.hasSlot_iff.mp hi)
  have hslot := h.offset i _ hs
  have hrange := (h.tuple_range hs).1
  have hend := h.freeEnd
  have hroom := h.room
  split at hslot
  · exact absurd hslot hoff
  · omega

/-- The page after a removal, where bytes are read that lie apart from the pointer and from the header. -/
theorem otherSlotsKept (h : Holds page slots) {page' : Page} {off : Nat} {p : TuplePtr} {header : Header}
    (hi : i < slots.length → off = 5 + 4 * i) (hpage' : page' = constructPageHeaderBuf (page.blit off p.bytes) header)
    (hcases : i < slots.length ∨ page.blit off p.bytes = page) : OtherSlotsKept page page' i := by
  have hlen := tuplePtr_bytes_length p
  subst hpage'
  refine ⟨fun j hj hji => ?_, fun j hj hoff => ?_⟩
  · have hj' := h.hasSlot_iff.mp hj
    rw [slice_construct _ _ (by omega)]
    rcases hcases with hlt | hsame
    · have := hi hlt
      exact Block.slice_blit_disjoint _ (by omega)
    · rw [hsame]
  · have hlive := h.live_range hj hoff
    rw [slice_construct _ _ (by omega)]
    rcases hcases with hlt | hsame
    · have := hi hlt
      exact Block.slice_blit_disjoint _ (by omega)
    · rw [hsame]

end Holds

/-- The slot numbers that do no harm on a page with tuples. -/
theorem TablePage.ridSafe_iff {schema : Page} {slots : List Slot} {d : DiskManager}
    (h : TablePage schema slots d) (slotNum : UInt32) : RidSafe d ⟨2, slotNum⟩ ↔ SlotOrZero d ⟨2, slotNum⟩ := by
  obtain ⟨page, hpage, hholds⟩ := h.page2
  have hpage₀ : d.file (⟨2, slotNum⟩ : RID).pid = some page := hpage
  have hlive : LiveTuple d ⟨2, slotNum⟩ ↔ HasSlot page slotNum.toNat ∧ slotOffset page slotNum.toNat ≠ 0 := by
    constructor
    · rintro ⟨-, page', hpage', hlive⟩
      cases hpage.symm.trans hpage'
      exact hlive
    · exact fun hlive => ⟨Nat.le_refl 2, page, hpage, hlive⟩
  have hslot : HasSlot page slotNum.toNat → tuplePtrOffset slotNum = 5 + 4 * slotNum.toNat ∧
      5 + 4 * slotNum.toNat + 4 ≤ 4096 := by
    intro hs
    have := hholds.tuplePtrOffset_eq (hholds.hasSlot_iff.mp hs)
    rwa [UInt32.ofNat_toNat] at this
  constructor
  · rintro ⟨hget, -⟩
    refine ⟨page, hpage, or_iff_not_imp_left.mpr fun hno => ?_⟩
    exact (getTuple_none_iff hpage₀).mp (hget fun hl => hno (hlive.mp hl).1)
  · rintro ⟨page', hpage', hcond⟩
    cases hpage.symm.trans hpage'
    have hle : tuplePtrOffset slotNum + 4 ≤ 4096 := by
      rcases hcond with hs | hzero
      · obtain ⟨heq, hle⟩ := hslot hs
        rw [heq]
        exact hle
      · exact hzero.1
    refine ⟨fun hno => (getTuple_none_iff hpage₀).mpr ?_, _, page, _,
      removeTuple_ok hpage₀ (markRemoved_eq hle), hpage, Disk.write_same d.file 2 _, ?_⟩
    · rcases hcond with hs | hzero
      · -- the tuple was removed
        have h0 : slotOffset page slotNum.toNat = 0 := by
          by_contra hne
          exact hno (hlive.mpr ⟨hs, hne⟩)
        obtain ⟨heq, -⟩ := hslot hs
        refine ⟨hle, decodeUint16_slice_eq_zero.mp ?_⟩
        show decodeUint16 (page.slice (tuplePtrOffset slotNum) 2) = 0
        rw [heq]
        exact UInt16.toNat_inj.mp h0
      · exact hzero
    · refine hholds.otherSlotsKept (fun hlt => (hslot (hholds.hasSlot_iff.mpr hlt)).1) rfl ?_
      rcases hcond with hs | hzero
      · exact .inl (hholds.hasSlot_iff.mp hs)
      · exact .inr (blit_of_readsZero hzero)

/-- **Arbitrary slot numbers.** On a page after any run of additions and removals that fit, whatever lies in its
unused bytes, a slot number is safe if and only if it is that of a slot, or the bytes taken for its tuple
pointer lie in the page and begin with zeros. -/
theorem rid_run_safe {columns : Columns} {mem d₀ d₁ d₂ : DiskManager} {u : Unit} {pid : PageId}
    (hcreate : createTable columns mem = (.ok u, d₀)) {pre : List HeapOp} {us : List Unit}
    (hpre : Prog.runAll heapOp pre d₀ = (.ok us, d₁)) (hnew : newHeapPage d₁ = (.ok pid, d₂))
    {ops : List PageOp} (hremoves : RemovesAdded ops)
    (hfits : Prog.Meets (pageOp pid) PageOp.Fits ops d₂) :
    ∃ rs d, Prog.runAll (pageOp pid) ops d₂ = (.ok rs, d) ∧
      ∀ slotNum, RidSafe d ⟨pid, slotNum⟩ ↔ SlotOrZero d ⟨pid, slotNum⟩ := by
  obtain ⟨rfl, rs, d, schema, slots, hrun, -, htable⟩ := tablePage_run hcreate hpre hnew hremoves hfits
  exact ⟨rs, d, hrun, htable.ridSafe_iff⟩

/-- Both slots of a page are safe, that of a tuple that was removed and that of a live one. -/
theorem rid_run_safe_flag : ∃ d₀ d₂ rs d, createTable flagColumns blankMemory = (.ok (), d₀) ∧
    newHeapPage d₀ = (.ok 2, d₂) ∧ Prog.runAll (pageOp 2) flagOps d₂ = (.ok rs, d) ∧
    RidSafe d ⟨2, 0⟩ ∧ RidSafe d ⟨2, 1⟩ := by
  obtain ⟨d₀, hcreate, hcreated⟩ := createTable_of_schema blankMemory schemaPage_flag
  have hnew := newHeapPage_ok hcreated.directory
  obtain ⟨-, -, htable⟩ := TablePage.of_newHeapPage hcreated.directory hcreated.page0 hcreated.page1 hnew
  have hpre : Prog.runAll heapOp [] d₀ = (.ok [], d₀) := rfl
  have hfits := meets_flag htable
  obtain ⟨rs, d, hrun, hsafe⟩ := rid_run_safe hcreate hpre hnew removesAdded_flag hfits
  obtain ⟨-, rs', d', schema, slots, hrun', hslots, htable'⟩ := tablePage_run hcreate hpre hnew removesAdded_flag hfits
  cases hrun.symm.trans hrun'
  obtain ⟨page, hpage, hholds⟩ := htable'.page2
  have hlen : slots.length = 2 := hslots.length
  exact ⟨d₀, _, rs, d, hcreate, hnew, hrun,
    (hsafe 0).mpr ⟨page, hpage, .inl (hholds.hasSlot_iff.mpr (by rw [hlen]; decide))⟩,
    (hsafe 1).mpr ⟨page, hpage, .inl (hholds.hasSlot_iff.mpr (by rw [hlen]; decide))⟩⟩

/-- On a page with one tuple, the slot number 1022 is read past the end of the page, and 2^30 is taken for the
slot 0: the tuple is returned for it. -/
theorem rid_run_safe_fails : ∃ d₀ d, createTable flagColumns blankMemory = (.ok (), d₀) ∧
    Prog.runAll heapOp [.newPage, .add flagArgs] d₀ = (.ok [(), ()], d) ∧
    ¬ RidSafe d ⟨2, 1022⟩ ∧ ¬ RidSafe d ⟨2, 1073741824⟩ := by
  obtain ⟨d₀, d, hcreate, hrun, ⟨page, hpage, hholds⟩, -, -⟩ :=
    newPage_add_run blankMemory schemaPage_flag validate_flag (by decide)
  have hnot : ∀ slotNum : UInt32, 1 ≤ slotNum.toNat → ¬ ReadsZero page slotNum → ¬ RidSafe d ⟨2, slotNum⟩ := by
    intro slotNum hpos hread hsafe
    have hlive : ¬ LiveTuple d ⟨2, slotNum⟩ := by
      rintro ⟨-, page', hpage', hslot, -⟩
      cases hpage.symm.trans hpage'
      have := hholds.hasSlot_iff.mp hslot
      simp at this
      omega
    exact hread ((@getTuple_none_iff d page ⟨2, slotNum⟩ hpage).mp (hsafe.1 hlive))
  refine ⟨d₀, d, hcreate, hrun, hnot _ (by decide) fun h => absurd h.1 (by decide),
    hnot _ (by decide) fun h => ?_⟩
  have hslot := hholds.offset 0 _ rfl
  have h0 : slotOffset page 0 = 0 := congrArg UInt16.toNat (decodeUint16_slice_eq_zero.mpr h.2)
  rw [h0] at hslot
  exact absurd hslot (by decide)

end SomeDB
