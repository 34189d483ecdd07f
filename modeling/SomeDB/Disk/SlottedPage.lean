import SomeDB.Disk.Heapfile

/-!
# Slotted pages

`Holds page slots`: the page holds the tuples `slots`, in the order in which they were added; a tuple that
was removed keeps its slot and its bytes. The slot array grows up from the header, the tuples grow down
from the end of the page, and `Holds` says that they do not meet. `Holds.storeTuple` and
`Holds.markRemoved` are the two steps.
-/

namespace SomeDB

open Lib

/-- A tuple of a page. -/
structure Slot where
  bytes : List UInt8
  removed : Bool
  deriving DecidableEq

/-- The bytes that the tuples take. -/
def used (slots : List Slot) : Nat := (slots.map (·.bytes.length)).sum

/-- The tuple `i` is removed. -/
def dropSlot (slots : List Slot) (i : Nat) : List Slot := slots.modify i fun s => { s with removed := true }

/-- Where the tuple `i` begins. -/
def tupleStart (slots : List Slot) (i : Nat) : Nat := 4095 - used (slots.take (i + 1))

/-- The two fields of the tuple pointer `i`. -/
def slotOffset (page : Page) (i : Nat) : Nat := (decodeUint16 (page.slice (5 + 4 * i) 2)).toNat
def slotSize (page : Page) (i : Nat) : Nat := (decodeUint16 (page.slice (5 + 4 * i + 2) 2)).toNat

/-- The page holds the tuples. -/
structure Holds (page : Page) (slots : List Slot) : Prop where
  freeStart : (extractHeader page).freeStart.toNat = 5 + 4 * slots.length
  freeEnd : (extractHeader page).freeEnd.toNat + used slots = 4095
  room : 5 + 4 * slots.length + used slots ≤ 4095
  offset : ∀ (i : Nat) (s : Slot), slots[i]? = some s →
    slotOffset page i = if s.removed then 0 else tupleStart slots i
  size : ∀ (i : Nat) (s : Slot), slots[i]? = some s → slotSize page i = s.bytes.length
  bytes : ∀ (i : Nat) (s : Slot), slots[i]? = some s →
    page.slice (tupleStart slots i) s.bytes.length = s.bytes

/-! ## Where the tuples are -/

section Layout

variable {slots : List Slot} {i j : Nat} {s : Slot}

theorem used_append (a b : List Slot) : used (a ++ b) = used a + used b := by
  simp [used]

theorem used_take_succ (h : slots[i]? = some s) :
    used (slots.take (i + 1)) = used (slots.take i) + s.bytes.length := by
  rw [List.take_add_one, h, used_append]
  simp [used]

theorem used_take_le (slots : List Slot) (i : Nat) : used (slots.take i) ≤ used slots := by
  conv_rhs => rw [← List.take_append_drop i slots, used_append]
  omega

theorem used_take_mono (slots : List Slot) (h : i ≤ j) : used (slots.take i) ≤ used (slots.take j) := by
  have := used_take_le (slots.take j) i
  rwa [List.take_take, Nat.min_eq_left h] at this

theorem used_dropSlot (slots : List Slot) (i : Nat) : used (dropSlot slots i) = used slots := by
  rw [used, used, dropSlot]
  congr 1
  apply List.ext_getElem
  · simp
  · intro k h₁ h₂
    simp only [List.getElem_map, List.getElem_modify]
    split <;> rfl

theorem tupleStart_dropSlot (slots : List Slot) (i j : Nat) :
    tupleStart (dropSlot slots i) j = tupleStart slots j := by
  have : (dropSlot slots i).take (j + 1) = dropSlot (slots.take (j + 1)) i := List.take_modify ..
  rw [tupleStart, tupleStart, this, used_dropSlot]

theorem tupleStart_append {t : Slot} (h : i < slots.length) :
    tupleStart (slots ++ [t]) i = tupleStart slots i := by
  rw [tupleStart, tupleStart, List.take_append_of_le_length (by omega)]

theorem tupleStart_last (slots : List Slot) (t : Slot) :
    tupleStart (slots ++ [t]) slots.length = 4095 - (used slots + t.bytes.length) := by
  rw [tupleStart, List.take_of_length_le (by simp), used_append]
  simp [used]

end Layout

namespace Holds

variable {page : Page} {slots : List Slot} {i j : Nat} {s : Slot}

/-- The tuple `i` lies between the end of the free space and the end of the page. -/
theorem tuple_range (h : Holds page slots) (hi : slots[i]? = some s) :
    (extractHeader page).freeEnd.toNat ≤ tupleStart slots i ∧
      tupleStart slots i + s.bytes.length + used (slots.take i) = 4095 := by
  have h₁ := used_take_succ hi
  have h₂ := used_take_le slots (i + 1)
  have h₃ := h.room
  have h₄ := h.freeEnd
  rw [tupleStart]
  omega

/-- A tuple lies below the tuples that were added before it. -/
theorem tuple_disjoint (h : Holds page slots) {t : Slot} (hi : slots[i]? = some s)
    (hj : slots[j]? = some t) (hij : i < j) :
    tupleStart slots j + t.bytes.length ≤ tupleStart slots i := by
  have h₁ := (h.tuple_range hi).2
  have h₂ := (h.tuple_range hj).2
  have h₃ := used_take_mono slots (show i + 1 ≤ j from hij)
  rw [used_take_succ hi] at h₃
  omega

end Holds

/-! ## Headers -/

theorem extractHeader_construct (page : Page) (h : Header) :
    extractHeader (constructPageHeaderBuf page h) = h := by
  have hslice : ∀ (a b : List UInt8) (c : UInt8), a.length = 2 → b.length = 2 →
      (page.blit 0 (a ++ b ++ [c])).slice 0 5 = a ++ b ++ [c] := by
    intro a b c ha hb
    exact Block.slice_blit_of_length _ (by simp [ha, hb]) (by omega)
  have hall := hslice (encodeUint16 h.freeStart) (encodeUint16 h.freeEnd) h.flags rfl rfl
  rw [show (5 : Nat) = 2 + (2 + 1) from rfl, Block.slice_add, Block.slice_add, Block.slice_one,
    List.append_assoc] at hall
  have h₁ := List.append_inj hall (by simp)
  have h₂ := List.append_inj h₁.2 (by simp)
  have h₃ := List.singleton_inj.mp h₂.2
  rw [extractHeader, constructPageHeaderBuf, List.append_assoc]
  simp only [Nat.zero_add] at h₂ h₃
  rw [h₁.1, h₂.1, h₃, decodeUint16_encodeUint16, decodeUint16_encodeUint16]

/-- What lies behind the header stays. -/
theorem slice_construct (page : Page) (h : Header) {off len : Nat} (hoff : 5 ≤ off) :
    (constructPageHeaderBuf page h).slice off len = page.slice off len :=
  Block.slice_blit_disjoint _ (.inr (by simpa using hoff))

theorem tuplePtr_bytes_length (p : TuplePtr) : p.bytes.length = 4 := by
  simp [TuplePtr.bytes]

/-- The two fields of a tuple pointer that was written. -/
theorem slot_blit (page : Page) (p : TuplePtr) {off : Nat} (h : off + 4 ≤ 4096) :
    (page.blit off p.bytes).slice off 2 = encodeUint16 p.startOffset ∧
      (page.blit off p.bytes).slice (off + 2) 2 = encodeUint16 p.size := by
  have hall : (page.blit off p.bytes).slice off 4 = p.bytes :=
    Block.slice_blit_of_length _ (tuplePtr_bytes_length p) h
  rw [show (4 : Nat) = 2 + 2 from rfl, Block.slice_add, TuplePtr.bytes] at hall
  exact List.append_inj hall (by simp)

/-! ## The steps -/

theorem holds_new (junk : Page) : Holds (newHeapPageBuf junk) [] := by
  refine ⟨?_, ?_, by simp [used], by simp, by simp, by simp⟩
  · rw [newHeapPageBuf, extractHeader_construct]
    rfl
  · rw [newHeapPageBuf, extractHeader_construct]
    rfl

/-- The page that `storeTuple` returns. -/
def withTuple (page : Page) (tupleBuf : List UInt8) (size : UInt16) : Page :=
  let header := extractHeader page
  let ptr : TuplePtr := ⟨header.freeEnd - size, size⟩
  constructPageHeaderBuf ((page.blit header.freeStart.toNat ptr.bytes).blit
    (header.freeEnd.toNat - size.toNat) tupleBuf)
    { header with freeStart := header.freeStart + 4, freeEnd := header.freeEnd - size }

theorem storeTuple_ok {page : Page} {tupleBuf : List UInt8} {size : UInt16}
    (hsize : tupleBuf.length = size.toNat) (hstart : (extractHeader page).freeStart.toNat + 4 ≤ 4096)
    (hlt : size.toNat ≤ (extractHeader page).freeEnd.toNat)
    (hend : (extractHeader page).freeEnd.toNat ≤ 4096) :
    storeTuple page tupleBuf size =
      .ok (withTuple page tupleBuf size, ⟨(extractHeader page).freeEnd - size, size⟩) := by
  simp only [storeTuple, bind, Except.bind]
  rw [memcpy_ok (by rw [tuplePtr_bytes_length]; exact hstart)]
  simp only [if_neg (Nat.not_lt.mpr hlt)]
  rw [memcpy_ok (by omega)]
  rfl

namespace Holds

variable {page : Page} {slots : List Slot}

/-- A tuple that fits is stored. -/
theorem storeTuple (h : Holds page slots) {tupleBuf : List UInt8} {size : UInt16}
    (hsize : tupleBuf.length = size.toNat)
    (hfit : 5 + 4 * (slots.length + 1) + used slots + size.toNat ≤ 4095) :
    SomeDB.storeTuple page tupleBuf size =
        .ok (withTuple page tupleBuf size, ⟨(extractHeader page).freeEnd - size, size⟩) ∧
      Holds (withTuple page tupleBuf size) (slots ++ [⟨tupleBuf, false⟩]) := by
  have hs := h.freeStart
  have he := h.freeEnd
  have hlt : size.toNat ≤ (extractHeader page).freeEnd.toNat := by omega
  have hend : ((extractHeader page).freeEnd - size).toNat = 4095 - (used slots + size.toNat) := by
    rw [UInt16.toNat_sub_of_le _ _ (UInt16.le_iff_toNat_le.mpr hlt)]
    omega
  have hstart : ((extractHeader page).freeStart + 4).toNat = 5 + 4 * (slots.length + 1) := by
    rw [UInt16.toNat_add, hs]
    simp only [UInt16.reduceToNat]
    omega
  refine ⟨storeTuple_ok hsize (by omega) hlt (by omega), ?_⟩
  -- the pointer, the tuple and the header are written apart from each other
  rw [withTuple]
  generalize hptr : (⟨(extractHeader page).freeEnd - size, size⟩ : TuplePtr) = ptr
  have hptr₁ : ptr.startOffset.toNat = 4095 - (used slots + size.toNat) := by rw [← hptr]; exact hend
  have hptr₂ : ptr.size = size := by rw [← hptr]
  have hlen : ptr.bytes.length = 4 := tuplePtr_bytes_length ptr
  have hread : ∀ off len, 5 ≤ off →
      (off + len ≤ 5 + 4 * slots.length ∨
        5 + 4 * (slots.length + 1) ≤ off ∧ off + len ≤ 4095 - (used slots + size.toNat) ∨
        4095 - used slots ≤ off) →
      (constructPageHeaderBuf ((page.blit (extractHeader page).freeStart.toNat ptr.bytes).blit
        ((extractHeader page).freeEnd.toNat - size.toNat) tupleBuf)
        { extractHeader page with
          freeStart := (extractHeader page).freeStart + 4
          freeEnd := (extractHeader page).freeEnd - size }).slice off len = page.slice off len := by
    intro off len h5 hcases
    rw [slice_construct _ _ h5, Block.slice_blit_disjoint _ (by omega),
      Block.slice_blit_disjoint _ (by omega)]
  have hslot := slot_blit page ptr (show (extractHeader page).freeStart.toNat + 4 ≤ 4096 by omega)
  refine ⟨?_, ?_, ?_, ?_, ?_, ?_⟩
  · rw [extractHeader_construct]
    simpa using hstart
  · rw [extractHeader_construct, used_append]
    simp only [hend, used, List.map_cons, List.map_nil, List.sum_cons, List.sum_nil, hsize]
    simp only [used] at hfit
    omega
  · rw [used_append]
    simp only [List.length_append, List.length_singleton, used, List.map_cons, List.map_nil,
      List.sum_cons, List.sum_nil, hsize]
    simp only [used] at hfit
    omega
  · intro i s hi
    rcases getElem?_concat_cases hi with ⟨hlt', hi⟩ | ⟨rfl, rfl⟩
    · rw [slotOffset, hread _ _ (by omega) (by omega), tupleStart_append hlt']
      exact h.offset i s hi
    · rw [tupleStart_last, slotOffset, slice_construct _ _ (by omega),
        Block.slice_blit_disjoint _ (by omega), ← hs, hslot.1, decodeUint16_encodeUint16, hptr₁, hsize]
      simp
  · intro i s hi
    rcases getElem?_concat_cases hi with ⟨hlt', hi⟩ | ⟨rfl, rfl⟩
    · rw [slotSize, hread _ _ (by omega) (by omega)]
      exact h.size i s hi
    · rw [slotSize, slice_construct _ _ (by omega), Block.slice_blit_disjoint _ (by omega), ← hs,
        hslot.2, decodeUint16_encodeUint16, hptr₂, hsize]
  · intro i s hi
    rcases getElem?_concat_cases hi with ⟨hlt', hi⟩ | ⟨rfl, rfl⟩
    · have hrange := h.tuple_range hi
      rw [tupleStart_append hlt', hread _ _ (by omega) (by omega)]
      exact h.bytes i s hi
    · have hoff : 4095 - (used slots + tupleBuf.length) =
          (extractHeader page).freeEnd.toNat - size.toNat := by omega
      rw [tupleStart_last, hoff, slice_construct _ _ (by omega)]
      exact Block.slice_blit _ _ tupleBuf (by omega)

/-- The tuple pointer `i` is where `extract_tuple_ptr` reads it. -/
theorem tuplePtrOffset_eq (h : Holds page slots) {i : Nat} (hi : i < slots.length) :
    tuplePtrOffset (UInt32.ofNat i) = 5 + 4 * i ∧ 5 + 4 * i + 4 ≤ 4096 := by
  have hroom := h.room
  rw [tuplePtrOffset, UInt32.toNat_mul, UInt32.toNat_ofNat']
  simp only [UInt32.reduceToNat]
  omega

theorem extractTuplePtr (h : Holds page slots) {i : Nat} (hi : i < slots.length) :
    ∃ p, SomeDB.extractTuplePtr page (UInt32.ofNat i) = .ok p ∧ p.startOffset.toNat = slotOffset page i ∧
      p.size.toNat = slotSize page i := by
  obtain ⟨hoff, hle⟩ := h.tuplePtrOffset_eq hi
  refine ⟨⟨decodeUint16 (page.slice (5 + 4 * i) 2), decodeUint16 (page.slice (5 + 4 * i + 2) 2)⟩, ?_,
    rfl, rfl⟩
  simp only [SomeDB.extractTuplePtr, hoff, if_pos hle]

/-- A tuple is marked as removed. -/
theorem markRemoved (h : Holds page slots) {i : Nat} (hi : i < slots.length) :
    ∃ page', SomeDB.markRemoved page (UInt32.ofNat i) = .ok page' ∧ Holds page' (dropSlot slots i) := by
  obtain ⟨hoff, hle⟩ := h.tuplePtrOffset_eq hi
  obtain ⟨p, hp, -, hpsize⟩ := h.extractTuplePtr hi
  have hlen : (⟨0, p.size⟩ : TuplePtr).bytes.length = 4 := tuplePtr_bytes_length _
  refine ⟨constructPageHeaderBuf (page.blit (5 + 4 * i) (⟨0, p.size⟩ : TuplePtr).bytes)
    { extractHeader page with flags := (extractHeader page).flags ||| COMPACTABLE }, ?_, ?_⟩
  · simp only [SomeDB.markRemoved, hp, bind, Except.bind, constructPageTuplePtr, hoff]
    rw [memcpy_ok (by rw [hlen]; exact hle)]
  have hroom := h.room
  have hread : ∀ off len, 5 ≤ off → (off + len ≤ 5 + 4 * i ∨ 5 + 4 * i + 4 ≤ off) →
      (constructPageHeaderBuf (page.blit (5 + 4 * i) (⟨0, p.size⟩ : TuplePtr).bytes)
        { extractHeader page with flags := (extractHeader page).flags ||| COMPACTABLE }).slice off len =
        page.slice off len := by
    intro off len h5 hcases
    rw [slice_construct _ _ h5, Block.slice_blit_disjoint _ (by omega)]
  have hslot := slot_blit page (⟨0, p.size⟩ : TuplePtr) hle
  have hlength : (dropSlot slots i).length = slots.length := by simp [dropSlot]
  have hget : ∀ {j : Nat} {s : Slot}, (dropSlot slots i)[j]? = some s →
      ∃ s₀, slots[j]? = some s₀ ∧ s.bytes = s₀.bytes ∧
        s.removed = (if j = i then true else s₀.removed) := by
    intro j s hj
    simp only [dropSlot, List.getElem?_modify] at hj
    obtain ⟨s₀, hs₀, rfl⟩ := Option.map_eq_some_iff.mp hj
    refine ⟨s₀, hs₀, ?_⟩
    by_cases hij : i = j
    · subst hij; simp
    · simp [hij, Ne.symm hij]
  refine ⟨?_, ?_, ?_, ?_, ?_, ?_⟩
  · rw [extractHeader_construct, hlength]
    exact h.freeStart
  · rw [extractHeader_construct, used_dropSlot]
    exact h.freeEnd
  · rw [hlength, used_dropSlot]
    exact hroom
  · intro j s hj
    obtain ⟨s₀, hs₀, -, hrem⟩ := hget hj
    rw [tupleStart_dropSlot, hrem]
    by_cases hij : j = i
    · subst hij
      rw [if_pos rfl, if_pos rfl, slotOffset, slice_construct _ _ (by omega), hslot.1,
        decodeUint16_encodeUint16]
      rfl
    · have hlt := (List.getElem?_eq_some_iff.mp hs₀).1
      rw [if_neg hij, slotOffset, hread _ _ (by omega) (by omega)]
      exact h.offset j s₀ hs₀
  · intro j s hj
    obtain ⟨s₀, hs₀, hbytes, -⟩ := hget hj
    rw [hbytes, ← h.size j s₀ hs₀]
    by_cases hij : j = i
    · subst hij
      rw [slotSize, slice_construct _ _ (by omega), hslot.2, decodeUint16_encodeUint16, hpsize]
    · rw [slotSize, hread _ _ (by omega) (by omega)]
      rfl
  · intro j s hj
    obtain ⟨s₀, hs₀, hbytes, -⟩ := hget hj
    have hrange := h.tuple_range hs₀
    have hend := h.freeEnd
    rw [tupleStart_dropSlot, hbytes, hread _ _ (by omega) (by omega)]
    exact h.bytes j s₀ hs₀

end Holds

end SomeDB
