import SomeDB.Disk.SlottedPage
import SomeDB.Lib.Intervals
import Mathlib.Algebra.Order.BigOperators.Group.List
import Mathlib.Algebra.Order.Ring.Nat

/-!
# Defragmentation

`defragment` copies the tuples that are left to a new page, one below the other (`Packed`), and copies their
tuple pointers as they are. The loop ends at a tuple pointer whose size is 0 or behind `free_start`, and so it
also looks at the tuple pointer at `free_start`, where there is none.
-/

namespace SomeDB

open Lib

/-- The bytes that the tuple pointer `i` points to. -/
def tupleAt (page : Page) (i : Nat) : List UInt8 := page.slice (slotOffset page i) (slotSize page i)

/-- The first `n` slots without those that are marked as removed. -/
def liveSlots (page : Page) (n : Nat) : List Nat := (List.range n).filter (slotOffset page · ≠ 0)

/-- The tuples of the slots, in their order. -/
def tuplesAt (page : Page) (is : List Nat) : List (List UInt8) := is.map (tupleAt page)

/-- The bytes that the tuples of the slots take. -/
def bytesIn (page : Page) (is : List Nat) : Nat := (is.map (slotSize page)).sum

/-- The slotted layout of a page with `n` slots. -/
structure Slotted (page : Page) (n : Nat) : Prop where
  freeStart : (extractHeader page).freeStart.toNat = 5 + 4 * n
  room : 5 + 4 * n ≤ (extractHeader page).freeEnd.toNat
  freeEnd : (extractHeader page).freeEnd.toNat ≤ 4095
  size : ∀ i < n, 0 < slotSize page i
  inside : ∀ i ∈ liveSlots page n, (extractHeader page).freeEnd.toNat ≤ slotOffset page i ∧
    slotOffset page i + slotSize page i ≤ 4095
  apart : ((liveSlots page n).map fun i => (slotOffset page i, slotSize page i)).Pairwise Range.Apart

section Slots

variable {page : Page} {n i : Nat}

theorem liveSlots_succ (page : Page) (n : Nat) :
    liveSlots page (n + 1) = liveSlots page n ++ if slotOffset page n = 0 then [] else [n] := by
  rw [liveSlots, List.range_succ, List.filter_append, liveSlots]
  by_cases h : slotOffset page n = 0
  · simp [h]
  · simp [h]

theorem liveSlots_length_le (page : Page) (n : Nat) : (liveSlots page n).length ≤ n := by
  have := List.length_filter_le (slotOffset page · ≠ 0) (List.range n)
  simpa [liveSlots] using this

theorem mem_liveSlots : i ∈ liveSlots page n ↔ i < n ∧ slotOffset page i ≠ 0 := by
  simp [liveSlots]

theorem liveSlots_sublist (page : Page) (h : i ≤ n) : (liveSlots page i).Sublist (liveSlots page n) :=
  List.Sublist.filter _ (List.range_sublist.mpr h)

theorem bytesIn_snoc (page : Page) (is : List Nat) (i : Nat) :
    bytesIn page (is ++ [i]) = bytesIn page is + slotSize page i := by
  simp [bytesIn]

theorem bytesIn_liveSlots_mono (page : Page) (h : i ≤ n) :
    bytesIn page (liveSlots page i) ≤ bytesIn page (liveSlots page n) :=
  ((liveSlots_sublist page h).map _).sum_le_sum fun _ _ => Nat.zero_le _

theorem tupleAt_length (page : Page) (i : Nat) : (tupleAt page i).length = slotSize page i := by
  simp [tupleAt]

/-- The tuples that are left fit between the end of the free space and the end of the page. -/
theorem Slotted.bytesIn_le (h : Slotted page n) :
    bytesIn page (liveSlots page n) ≤ 4095 - (extractHeader page).freeEnd.toNat := by
  have hsum : _ ≤ 4095 - (extractHeader page).freeEnd.toNat := Range.sum_le h.apart ?_
  · rwa [List.map_map] at hsum
  · intro a ha
    obtain ⟨i, hi, rfl⟩ := List.mem_map.mp ha
    exact h.inside i hi

end Slots

/-! ## The loop -/

/-- The new page after the tuples of the slots `is` of `temp` were copied to it, on a buffer that held `junk`. -/
structure Packed (temp junk : Page) (is : List Nat) (page : Page) (header : Header) : Prop where
  freeStart : header.freeStart.toNat = 5 + 4 * is.length
  freeEnd : header.freeEnd.toNat + bytesIn temp is = 4095
  pointers : ∀ j i, is[j]? = some i → page.slice (5 + 4 * j) 4 = temp.slice (5 + 4 * i) 4
  tuples : page.slice header.freeEnd.toNat (bytesIn temp is) = (tuplesAt temp is).reverse.flatten
  between : ∀ x, 5 + 4 * is.length ≤ x → x < header.freeEnd.toNat → page.byte x = junk.byte x

theorem packed_nil (temp junk : Page) : Packed temp junk [] junk ⟨5, 4095, 0⟩ :=
  ⟨rfl, rfl, by simp, rfl, fun _ _ _ => rfl⟩

section Loop

variable {temp junk page : Page} {header : Header} {is : List Nat} {i n : Nat} {off fs : UInt16}

/-- The page and the header after one more tuple. -/
def packTuple (temp page : Page) (header : Header) (i : Nat) : Page × Header :=
  ((page.blit (header.freeEnd.toNat - slotSize temp i) (tupleAt temp i)).blit header.freeStart.toNat
      (temp.slice (5 + 4 * i) 4),
    { header with
      freeStart := header.freeStart + 4
      freeEnd := header.freeEnd - decodeUint16 (temp.slice (5 + 4 * i + 2) 2) })

theorem Packed.packTuple (h : Packed temp junk is page header)
    (hroom : 5 + 4 * (is.length + 1) + bytesIn temp (is ++ [i]) ≤ 4095) :
    Packed temp junk (is ++ [i]) (packTuple temp page header i).1 (packTuple temp page header i).2 := by
  have hs := h.freeStart
  have he := h.freeEnd
  have hlen := tupleAt_length temp i
  have hbytes := bytesIn_snoc temp is i
  rw [hbytes] at hroom
  have hend : (header.freeEnd - decodeUint16 (temp.slice (5 + 4 * i + 2) 2)).toNat =
      header.freeEnd.toNat - slotSize temp i := by
    rw [UInt16.toNat_sub_of_le _ _ (UInt16.le_iff_toNat_le.mpr (by change slotSize temp i ≤ _; omega))]
    rfl
  have hstart : (header.freeStart + 4).toNat = 5 + 4 * (is.length + 1) := by
    rw [UInt16.toNat_add, hs]
    simp only [UInt16.reduceToNat]
    omega
  have hptr : (temp.slice (5 + 4 * i) 4).length = 4 := Block.slice_length ..
  refine ⟨?_, ?_, ?_, ?_, ?_⟩
  · simpa [SomeDB.packTuple] using hstart
  · simp only [SomeDB.packTuple, hend, hbytes]
    omega
  · intro j i' hj
    simp only [SomeDB.packTuple]
    rcases getElem?_concat_cases hj with ⟨hlt, hj⟩ | ⟨rfl, rfl⟩
    · rw [Block.slice_blit_disjoint _ (by omega), Block.slice_blit_disjoint _ (by omega)]
      exact h.pointers j i' hj
    · rw [← hs, Block.slice_blit_of_length _ hptr (by omega)]
  · -- the tuple, and the ones above it
    simp only [SomeDB.packTuple, hend, hbytes, tuplesAt, List.map_append, List.map_singleton,
      List.reverse_append, List.reverse_singleton, List.flatten_append, List.flatten_singleton]
    rw [Nat.add_comm (bytesIn temp is), Block.slice_add, Block.slice_blit_disjoint _ (by omega),
      Block.slice_blit_of_length _ hlen (by omega), Block.slice_blit_disjoint _ (by omega),
      Block.slice_blit_disjoint _ (by omega),
      show header.freeEnd.toNat - slotSize temp i + slotSize temp i = header.freeEnd.toNat by omega, h.tuples]
    rfl
  · intro x hlo hhi
    simp only [SomeDB.packTuple, hend, List.length_append, List.length_singleton] at hlo hhi ⊢
    rw [Block.byte_blit_disjoint _ (by omega), Block.byte_blit_disjoint _ (by omega)]
    exact h.between x (by omega) (by omega)

/-- The tuple pointer that is read at an offset. -/
theorem extractTuplePtr_index (temp : Page) (hoff : off.toNat = 5 + 4 * i) :
    extractTuplePtr temp (tuplePtrIndex off) =
      if 5 + 4 * i + 4 ≤ 4096 then
        .ok ⟨decodeUint16 (temp.slice (5 + 4 * i) 2), decodeUint16 (temp.slice (5 + 4 * i + 2) 2)⟩
      else .error .outOfBounds := by
  have hlt : off.toNat < 65536 := off.toNat_lt
  have hidx : tuplePtrIndex off = UInt32.ofNat i := by
    rw [tuplePtrIndex, hoff]
    congr 1
    omega
  have heq : tuplePtrOffset (tuplePtrIndex off) = 5 + 4 * i := by
    rw [hidx, tuplePtrOffset, UInt32.toNat_mul, UInt32.toNat_ofNat']
    simp only [UInt32.reduceToNat]
    omega
  simp only [extractTuplePtr, heq]

theorem decode_ne_zero {bs : List UInt8} (h : (decodeUint16 bs).toNat ≠ 0) : decodeUint16 bs ≠ 0 := by
  intro h0
  rw [h0] at h
  exact h rfl

variable {k : Nat}

theorem defragmentLoop_stop (hoff : off.toNat = 5 + 4 * i) (hin : 5 + 4 * i + 4 ≤ 4096)
    (h : slotSize temp i = 0 ∨ fs < off) :
    defragmentLoop temp fs (k + 1) off page header = .ok (page, header) := by
  have hstop : decodeUint16 (temp.slice (5 + 4 * i + 2) 2) = 0 ∨ off > fs :=
    h.imp_left fun h => UInt16.toNat_inj.mp h
  simp only [defragmentLoop, extractTuplePtr_index temp hoff, if_pos hin, bind, Except.bind, if_pos hstop]

theorem defragmentLoop_fault (hoff : off.toNat = 5 + 4 * i) (hin : ¬ 5 + 4 * i + 4 ≤ 4096) :
    defragmentLoop temp fs (k + 1) off page header = .error .outOfBounds := by
  simp only [defragmentLoop, extractTuplePtr_index temp hoff, if_neg hin, bind, Except.bind]

theorem defragmentLoop_skip (hoff : off.toNat = 5 + 4 * i) (hin : 5 + 4 * i + 4 ≤ 4096)
    (hsize : slotSize temp i ≠ 0) (hle : ¬ fs < off) (h0 : slotOffset temp i = 0) :
    defragmentLoop temp fs (k + 1) off page header = defragmentLoop temp fs k (off + 4) page header := by
  have hgo : ¬ (decodeUint16 (temp.slice (5 + 4 * i + 2) 2) = 0 ∨ off > fs) :=
    not_or.mpr ⟨decode_ne_zero hsize, hle⟩
  have h0' : decodeUint16 (temp.slice (5 + 4 * i) 2) = 0 := UInt16.toNat_inj.mp h0
  simp only [defragmentLoop, extractTuplePtr_index temp hoff, if_pos hin, bind, Except.bind, if_neg hgo,
    if_pos h0']

/-- A tuple is copied if it lies in the page and there is room for it. -/
theorem defragmentLoop_copy (hoff : off.toNat = 5 + 4 * i) (hin : 5 + 4 * i + 4 ≤ 4096)
    (hsize : slotSize temp i ≠ 0) (hle : ¬ fs < off) (h0 : slotOffset temp i ≠ 0)
    (htuple : slotOffset temp i + slotSize temp i ≤ 4096) (hend : slotSize temp i ≤ header.freeEnd.toNat)
    (hend' : header.freeEnd.toNat ≤ 4096) (hstart : header.freeStart.toNat + 4 ≤ 4096) :
    defragmentLoop temp fs (k + 1) off page header =
      defragmentLoop temp fs k (off + 4) (packTuple temp page header i).1
        (packTuple temp page header i).2 := by
  have hgo : ¬ (decodeUint16 (temp.slice (5 + 4 * i + 2) 2) = 0 ∨ off > fs) :=
    not_or.mpr ⟨decode_ne_zero hsize, hle⟩
  have h0' : decodeUint16 (temp.slice (5 + 4 * i) 2) ≠ 0 := decode_ne_zero h0
  have hread : readBytes temp (slotOffset temp i) (slotSize temp i) = .ok (tupleAt temp i) := if_pos htuple
  have hptr : readBytes temp off.toNat 4 = .ok (temp.slice (5 + 4 * i) 4) := by
    rw [hoff]
    exact if_pos hin
  have hlen := tupleAt_length temp i
  simp only [slotOffset, slotSize] at hread hend
  simp only [defragmentLoop, extractTuplePtr_index temp hoff, if_pos hin, bind, Except.bind, if_neg hgo,
    if_neg h0', hread, if_neg (Nat.not_lt.mpr hend), hptr]
  rw [memcpy_ok (by rw [hlen, slotSize]; omega)]
  dsimp only
  rw [memcpy_ok (by simpa using hstart)]
  rfl

/-- Whatever a tuple pointer points to: if the loop goes on behind it, it has counted it. -/
theorem defragmentLoop_counts {r : Page × Header} (hoff : off.toNat = 5 + 4 * i) (hin : 5 + 4 * i + 4 ≤ 4096)
    (hsize : slotSize temp i ≠ 0) (hle : ¬ fs < off) (h0 : slotOffset temp i ≠ 0)
    (hr : defragmentLoop temp fs (k + 1) off page header = .ok r) :
    ∃ page', defragmentLoop temp fs k (off + 4) page' (packTuple temp page header i).2 = .ok r := by
  have hgo : ¬ (decodeUint16 (temp.slice (5 + 4 * i + 2) 2) = 0 ∨ off > fs) :=
    not_or.mpr ⟨decode_ne_zero hsize, hle⟩
  have h0' : decodeUint16 (temp.slice (5 + 4 * i) 2) ≠ 0 := decode_ne_zero h0
  simp only [defragmentLoop, extractTuplePtr_index temp hoff, if_pos hin, bind, Except.bind, if_neg hgo,
    if_neg h0'] at hr
  split at hr
  · cases hr
  split at hr
  · cases hr
  split at hr
  · cases hr
  split at hr
  · cases hr
  split at hr
  · cases hr
  exact ⟨_, hr⟩

theorem toNat_add_four (hoff : off.toNat = 5 + 4 * i) (hi : 5 + 4 * i ≤ 4095) :
    (off + 4).toNat = 5 + 4 * (i + 1) := by
  rw [UInt16.toNat_add, hoff]
  simp only [UInt16.reduceToNat]
  omega

/-- The loop comes to the end of the slots with the tuples that are left copied. -/
theorem Slotted.defragmentLoop (h : Slotted temp n) (hfs : fs.toNat = 5 + 4 * n) :
    ∀ (d i : Nat) (off : UInt16) (page : Page) (header : Header), i + d = n → off.toNat = 5 + 4 * i →
      Packed temp junk (liveSlots temp i) page header →
      ∃ off' page' header', off'.toNat = 5 + 4 * n ∧ Packed temp junk (liveSlots temp n) page' header' ∧
        SomeDB.defragmentLoop temp fs (k + d) off page header =
          SomeDB.defragmentLoop temp fs k off' page' header'
  | 0, i, off, page, header, hi, hoff, hp => by
    obtain rfl : i = n := hi
    exact ⟨off, page, header, hoff, hp, rfl⟩
  | d + 1, i, off, page, header, hi, hoff, hp => by
    have hroom := h.room
    have hend := h.freeEnd
    have hsize : slotSize temp i ≠ 0 := Nat.pos_iff_ne_zero.mp (h.size i (by omega))
    have hle : ¬ fs < off := by
      rw [UInt16.lt_iff_toNat_lt]
      omega
    have hoff' := toNat_add_four hoff (by omega)
    have hsucc := liveSlots_succ temp i
    by_cases h0 : slotOffset temp i = 0
    · rw [if_pos h0, List.append_nil] at hsucc
      rw [← Nat.add_assoc, defragmentLoop_skip hoff (by omega) hsize hle h0]
      exact h.defragmentLoop hfs d (i + 1) (off + 4) page header (by omega) hoff' (hsucc ▸ hp)
    · rw [if_neg h0] at hsucc
      have hmem : i ∈ liveSlots temp n := mem_liveSlots.mpr ⟨by omega, h0⟩
      have hinside := h.inside i hmem
      -- the tuples up to this one leave the room that all of them leave
      have htotal := h.bytesIn_le
      have hmono := bytesIn_liveSlots_mono temp (show i + 1 ≤ n by omega)
      have hcount := liveSlots_length_le temp i
      have hs := hp.freeStart
      have he := hp.freeEnd
      rw [hsucc] at hmono
      have hbytes := bytesIn_snoc temp (liveSlots temp i) i
      rw [← Nat.add_assoc, defragmentLoop_copy hoff (by omega) hsize hle h0 (by omega) (by omega)
        (by omega) (by omega)]
      have hp' := hp.packTuple (i := i) (by omega)
      rw [← hsucc] at hp'
      exact h.defragmentLoop hfs d (i + 1) (off + 4) _ _ (by omega) hoff' hp'

end Loop

/-! ## The page that is left -/

/-- The tuple pointer at `free_start` ends the loop: its size is 0, or it looks like a removed one and the next
tuple pointer can be read. -/
def EndsLoop (page : Page) (n : Nat) : Prop :=
  5 + 4 * n + 4 ≤ 4096 ∧ (slotSize page n = 0 ∨ slotOffset page n = 0 ∧ 5 + 4 * n + 8 ≤ 4096)

instance (page : Page) (n : Nat) : Decidable (EndsLoop page n) :=
  inferInstanceAs (Decidable (_ ∧ _))

section Page

variable {temp junk : Page} {n : Nat} {fs : UInt16}

theorem Slotted.loop_start (h : Slotted temp n) (hfs : fs.toNat = 5 + 4 * n) (junk : Page) :
    ∃ k off page header, off.toNat = 5 + 4 * n ∧ Packed temp junk (liveSlots temp n) page header ∧
      SomeDB.defragmentLoop temp fs 16384 5 junk ⟨5, 4095, 0⟩ =
        SomeDB.defragmentLoop temp fs (k + 2) off page header := by
  have hroom := h.room
  have hend := h.freeEnd
  have hk : 16384 = (16382 - n) + 2 + n := by omega
  obtain ⟨off, page, header, hoff, hp, heq⟩ := h.defragmentLoop (k := 16382 - n + 2) hfs n 0 5 junk
    ⟨5, 4095, 0⟩ (Nat.zero_add n) rfl (packed_nil temp junk)
  refine ⟨16382 - n, off, page, header, hoff, hp, ?_⟩
  rw [← heq, ← hk]

theorem Slotted.loop_ends (h : Slotted temp n) (hfs : fs.toNat = 5 + 4 * n) (hstop : EndsLoop temp n)
    (junk : Page) : ∃ page header, Packed temp junk (liveSlots temp n) page header ∧
      SomeDB.defragmentLoop temp fs 16384 5 junk ⟨5, 4095, 0⟩ = .ok (page, header) := by
  have hroom := h.room
  have hend := h.freeEnd
  obtain ⟨k, off, page, header, hoff, hp, heq⟩ := h.loop_start hfs junk
  have hoff' := toNat_add_four hoff (by omega)
  refine ⟨page, header, hp, ?_⟩
  rw [heq]
  obtain ⟨hin, hsize | ⟨h0, hnext⟩⟩ := hstop
  · exact defragmentLoop_stop hoff hin (.inl hsize)
  · by_cases hsize : slotSize temp n = 0
    · exact defragmentLoop_stop hoff hin (.inl hsize)
    · rw [defragmentLoop_skip hoff hin hsize (by rw [UInt16.lt_iff_toNat_lt]; omega) h0]
      exact defragmentLoop_stop hoff' (by omega) (.inr (by rw [UInt16.lt_iff_toNat_lt]; omega))

/-- Otherwise it is counted as one more tuple. -/
theorem Slotted.loop_overruns (h : Slotted temp n) (hfs : fs.toNat = 5 + 4 * n) (hstop : ¬ EndsLoop temp n)
    {r : Page × Header} (hr : SomeDB.defragmentLoop temp fs 16384 5 junk ⟨5, 4095, 0⟩ = .ok r) :
    r.2.freeStart.toNat = 5 + 4 * ((liveSlots temp n).length + 1) := by
  have hroom := h.room
  have hend := h.freeEnd
  have hcount := liveSlots_length_le temp n
  obtain ⟨k, off, page, header, hoff, hp, heq⟩ := h.loop_start hfs junk
  have hoff' := toNat_add_four hoff (by omega)
  have hle : ¬ fs < off := by
    rw [UInt16.lt_iff_toNat_lt]
    omega
  have hlt : fs < off + 4 := by
    rw [UInt16.lt_iff_toNat_lt]
    omega
  rw [heq] at hr
  by_cases hin : 5 + 4 * n + 4 ≤ 4096
  swap
  · rw [defragmentLoop_fault hoff hin] at hr
    cases hr
  have hsize : slotSize temp n ≠ 0 := fun h0 => hstop ⟨hin, .inl h0⟩
  by_cases h0 : slotOffset temp n = 0
  · have hnext : ¬ 5 + 4 * (n + 1) + 4 ≤ 4096 := fun hle => hstop ⟨hin, .inr ⟨h0, by omega⟩⟩
    rw [defragmentLoop_skip hoff hin hsize hle h0, defragmentLoop_fault hoff' hnext] at hr
    cases hr
  · obtain ⟨page', hr⟩ := defragmentLoop_counts hoff hin hsize hle h0 hr
    by_cases hnext : 5 + 4 * (n + 1) + 4 ≤ 4096
    · rw [defragmentLoop_stop hoff' hnext (.inr hlt)] at hr
      cases hr
      exact toNat_add_four hp.freeStart (by omega)
    · rw [defragmentLoop_fault hoff' hnext] at hr
      cases hr

end Page

/-- The call, by what the loop returns. -/
theorem defragment_run {pid : PageId} {d : DiskManager} {temp : Page} (hread : d.file pid = some temp)
    (hflag : (extractHeader temp).flags &&& COMPACTABLE ≠ 0) :
    defragment pid d =
      match defragmentLoop temp (extractHeader temp).freeStart 16384 5 (d.junk 0) ⟨5, 4095, 0⟩ with
      | .ok (page, header) =>
        (.ok (), { d with
          junk := fun n => d.junk (n + 1)
          file := d.file.write pid (constructPageHeaderBuf page
            { header with flags := (extractHeader temp).flags &&& ~~~COMPACTABLE }) })
      | .error e => (.error e, { d with junk := fun n => d.junk (n + 1) }) := by
  have hfile : ∀ d' : DiskManager, d'.file pid = some temp → onFile (readPage pid) d' = (.ok temp, d') := by
    intro d' hd'
    have h : readPage pid d'.file = (.ok temp, d'.file) := by rw [readPage, hd']
    exact Prog.zoom_ok h
  have hmalloc : mallocPage d = (.ok (d.junk 0), { d with junk := fun n => d.junk (n + 1) }) := rfl
  simp only [defragment]
  rw [Prog.bind_ok (hfile d hread), if_neg hflag, Prog.bind_ok hmalloc,
    Prog.bind_ok (hfile { d with junk := fun n => d.junk (n + 1) } hread)]
  cases hloop : defragmentLoop temp (extractHeader temp).freeStart 16384 5 (d.junk 0) ⟨5, 4095, 0⟩ with
  | error e => rfl
  | ok r => rfl

/-! ## The space that is reclaimed -/

/-- `defragment` of `temp`, which has `n` slots, leaves all the space free that no tuple takes. -/
def Reclaims (pid : PageId) (d : DiskManager) (temp : Page) (n : Nat) : Prop :=
  ∃ d' page, defragment pid d = (.ok (), d') ∧ d'.file pid = some page ∧
    (extractHeader page).freeStart.toNat = 5 + 4 * (liveSlots temp n).length ∧
    (extractHeader page).freeEnd.toNat = 4095 - bytesIn temp (liveSlots temp n) ∧
    (extractHeader page).flags = (extractHeader temp).flags &&& ~~~COMPACTABLE

section Calls

variable {pid : PageId} {d d' : DiskManager} {temp page : Page} {n : Nat}

/-- If the loop ends where the slots end, the page on disk is the packed one. -/
theorem Slotted.defragment_ok (h : Slotted temp n) (hread : d.file pid = some temp)
    (hflag : (extractHeader temp).flags &&& COMPACTABLE ≠ 0) (hstop : EndsLoop temp n) :
    ∃ d' page header, Packed temp (d.junk 0) (liveSlots temp n) page header ∧
      defragment pid d = (.ok (), d') ∧ d'.file pid = some (constructPageHeaderBuf page
        { header with flags := (extractHeader temp).flags &&& ~~~COMPACTABLE }) := by
  obtain ⟨page, header, hp, hloop⟩ := h.loop_ends h.freeStart hstop (d.junk 0)
  have hrun := defragment_run hread hflag
  rw [hloop] at hrun
  exact ⟨_, page, header, hp, hrun, Disk.write_same ..⟩

/-- A page on disk that has as many slots as there are tuples left tells that the loop ended there. -/
theorem Slotted.endsLoop_of_ok (h : Slotted temp n) (hread : d.file pid = some temp)
    (hflag : (extractHeader temp).flags &&& COMPACTABLE ≠ 0) (hrun : defragment pid d = (.ok (), d'))
    (hpage : d'.file pid = some page)
    (hstart : (extractHeader page).freeStart.toNat ≠ 5 + 4 * ((liveSlots temp n).length + 1)) :
    EndsLoop temp n := by
  by_contra hstop
  rw [defragment_run hread hflag] at hrun
  split at hrun
  · next page' header hloop =>
    cases hrun
    have hover := h.loop_overruns h.freeStart hstop hloop
    have hwritten := Option.some.inj ((Disk.write_same ..).symm.trans hpage)
    rw [← hwritten, extractHeader_construct] at hstart
    exact hstart hover
  · cases hrun

theorem Slotted.reclaims (h : Slotted temp n) (hread : d.file pid = some temp)
    (hflag : (extractHeader temp).flags &&& COMPACTABLE ≠ 0) (hstop : EndsLoop temp n) :
    Reclaims pid d temp n := by
  obtain ⟨d', page, header, hp, hrun, hpage⟩ := h.defragment_ok hread hflag hstop
  have hend := hp.freeEnd
  refine ⟨d', _, hrun, hpage, ?_, ?_, ?_⟩
  · rw [extractHeader_construct]
    exact hp.freeStart
  · rw [extractHeader_construct]
    change header.freeEnd.toNat = _
    omega
  · rw [extractHeader_construct]

theorem Slotted.endsLoop_of_reclaims (h : Slotted temp n) (hread : d.file pid = some temp)
    (hflag : (extractHeader temp).flags &&& COMPACTABLE ≠ 0) (hre : Reclaims pid d temp n) :
    EndsLoop temp n := by
  obtain ⟨d', page, hrun, hpage, hstart, -, -⟩ := hre
  exact h.endsLoop_of_ok hread hflag hrun hpage (by omega)

/-- `defragment` reclaims exactly the space of the removed tuples if and only if the tuple pointer at
`free_start`, which is none, ends its loop. -/
theorem defragment_reclaims_iff (h : Slotted temp n) (hread : d.file pid = some temp)
    (hflag : (extractHeader temp).flags &&& COMPACTABLE ≠ 0) :
    Reclaims pid d temp n ↔ EndsLoop temp n :=
  ⟨h.endsLoop_of_reclaims hread hflag, h.reclaims hread hflag⟩

end Calls

/-- A page with two tuples of one byte, with the offsets in their tuple pointers and with what lies at
`free_start`. -/
def twoTuples (first second : UInt16) (rest : List UInt8) : Page :=
  constructPageHeaderBuf ((((Block.zero.blit 5 (TuplePtr.bytes ⟨first, 1⟩)).blit 9
    (TuplePtr.bytes ⟨second, 1⟩)).blit 13 rest).blit 4093 [7, 8]) ⟨13, 4093, COMPACTABLE⟩

/-- A table with one page. -/
def tableOf (pid : PageId) (page : Page) : DiskManager where
  file := fun q => if q = pid then some page else none
  pageDirectory := initHash FreeSpace 500
  mallocs := fun _ => ⟨65536, HeapPtr.lowest_le⟩
  junk := fun _ => Block.zero

/-- The first tuple is removed. -/
theorem slotted_removedFirst : Slotted (twoTuples 0 4093 []) 2 := by
  have hlive : liveSlots (twoTuples 0 4093 []) 2 = [1] := by decide +kernel
  refine ⟨by decide +kernel, by decide +kernel, by decide +kernel, by decide +kernel, ?_, ?_⟩
  · rw [hlive]
    decide +kernel
  · rw [hlive]
    exact List.pairwise_singleton ..

theorem defragment_reclaims_removedFirst :
    Reclaims 2 (tableOf 2 (twoTuples 0 4093 [])) (twoTuples 0 4093 []) 2 :=
  (defragment_reclaims_iff slotted_removedFirst rfl (by decide +kernel)).mpr (by decide +kernel)

/-- What lies at `free_start` is taken for a tuple pointer. -/
theorem defragment_reclaims_fails :
    Slotted (twoTuples 0 4093 [16, 0, 1, 0]) 2 ∧
      (extractHeader (twoTuples 0 4093 [16, 0, 1, 0])).flags &&& COMPACTABLE ≠ 0 ∧
      ¬ Reclaims 2 (tableOf 2 (twoTuples 0 4093 [16, 0, 1, 0])) (twoTuples 0 4093 [16, 0, 1, 0]) 2 := by
  have hlive : liveSlots (twoTuples 0 4093 [16, 0, 1, 0]) 2 = [1] := by decide +kernel
  have h : Slotted (twoTuples 0 4093 [16, 0, 1, 0]) 2 := by
    refine ⟨by decide +kernel, by decide +kernel, by decide +kernel, by decide +kernel, ?_, ?_⟩
    · rw [hlive]
      decide +kernel
    · rw [hlive]
      exact List.pairwise_singleton ..
  have hflag : (extractHeader (twoTuples 0 4093 [16, 0, 1, 0])).flags &&& COMPACTABLE ≠ 0 := by decide +kernel
  refine ⟨h, hflag, fun hre => ?_⟩
  have hends := h.endsLoop_of_reclaims rfl hflag hre
  revert hends
  decide +kernel

/-! ## The tuples that are kept -/

/-- What the slots of a page hold, in their order; a removed slot holds nothing. -/
def readSlots (page : Page) : List (Option (List UInt8)) :=
  (List.range (((extractHeader page).freeStart.toNat - 5) / 4)).map fun i =>
    if slotOffset page i = 0 then none else some (tupleAt page i)

/-- After `defragment` of `temp`, which has `n` slots, the slots hold the tuples that were left. -/
def KeepsTuples (pid : PageId) (d : DiskManager) (temp : Page) (n : Nat) : Prop :=
  ∃ d' page, defragment pid d = (.ok (), d') ∧ d'.file pid = some page ∧
    readSlots page = (tuplesAt temp (liveSlots temp n)).map some

/-- The tuples that are left are the last bytes of the page, and these bytes are the tuples from the last slot
to the first. -/
def InPlace (page : Page) (n : Nat) : Prop :=
  (∀ i ∈ liveSlots page n, 4095 - bytesIn page (liveSlots page n) ≤ slotOffset page i) ∧
    page.slice (4095 - bytesIn page (liveSlots page n)) (bytesIn page (liveSlots page n)) =
      (tuplesAt page (liveSlots page n)).reverse.flatten

instance (page : Page) (n : Nat) : Decidable (InPlace page n) :=
  inferInstanceAs (Decidable (_ ∧ _))

section Kept

variable {temp junk page : Page} {header : Header} {is : List Nat} {i j n : Nat} {flags : UInt8}

/-- The pointers are copied as they are. -/
theorem Packed.slot (h : Packed temp junk is page header) (hj : is[j]? = some i) (hd : Header) :
    slotOffset (constructPageHeaderBuf page hd) j = slotOffset temp i ∧
      slotSize (constructPageHeaderBuf page hd) j = slotSize temp i := by
  have hptr := h.pointers j i hj
  rw [show (4 : Nat) = 2 + 2 from rfl, Block.slice_add, Block.slice_add] at hptr
  obtain ⟨hoff, hsize⟩ := List.append_inj hptr (by simp)
  constructor
  · rw [slotOffset, slice_construct _ _ (by omega), hoff, slotOffset]
  · rw [slotSize, slice_construct _ _ (by omega), hsize, slotSize]

/-- The slots of the new page hold what lies where the tuples were in the old one. -/
theorem Packed.readSlots (h : Packed temp junk is page header) (hoff : ∀ i ∈ is, 5 ≤ slotOffset temp i) :
    SomeDB.readSlots (constructPageHeaderBuf page { header with flags }) =
      is.map fun i => some (page.slice (slotOffset temp i) (slotSize temp i)) := by
  have hs := h.freeStart
  apply List.ext_getElem
  · simp only [SomeDB.readSlots, extractHeader_construct, List.length_map, List.length_range]
    omega
  · intro j h₁ h₂
    rw [List.length_map] at h₂
    obtain ⟨ho, hz⟩ := h.slot (List.getElem?_eq_getElem h₂) { header with flags }
    have h5 := hoff is[j] (List.getElem_mem h₂)
    simp only [SomeDB.readSlots, List.getElem_map, List.getElem_range, ho, tupleAt, hz]
    rw [if_neg (by omega), slice_construct _ _ h5]

/-- `readSlots` sees the old tuples if and only if the new page has the old bytes there. -/
theorem Packed.readSlots_iff (h : Packed temp junk is page header) (hoff : ∀ i ∈ is, 5 ≤ slotOffset temp i) :
    SomeDB.readSlots (constructPageHeaderBuf page { header with flags }) = (tuplesAt temp is).map some ↔
      ∀ i ∈ is, page.slice (slotOffset temp i) (slotSize temp i) = tupleAt temp i := by
  rw [h.readSlots hoff, tuplesAt, List.map_map, List.map_inj_left]
  simp

theorem Slotted.offset_ge (h : Slotted temp n) : ∀ i ∈ liveSlots temp n, 5 ≤ slotOffset temp i := by
  intro i hi
  have hroom := h.room
  have hinside := h.inside i hi
  omega

/-- Tuples in place are where they were. -/
theorem InPlace.kept (h : Slotted temp n) (hp : Packed temp junk (liveSlots temp n) page header)
    (hin : InPlace temp n) (i : Nat) (hi : i ∈ liveSlots temp n) :
    page.slice (slotOffset temp i) (slotSize temp i) = tupleAt temp i := by
  have hend := hp.freeEnd
  have hB : header.freeEnd.toNat = 4095 - bytesIn temp (liveSlots temp n) := by omega
  have hall := hp.tuples.trans hin.2.symm
  rw [hB, Block.slice_eq_iff] at hall
  have hlo := hin.1 i hi
  have hhi := h.inside i hi
  rw [tupleAt, Block.slice_eq_iff]
  intro x hx
  have hbyte := hall (slotOffset temp i + x - (4095 - bytesIn temp (liveSlots temp n))) (by omega)
  rwa [show 4095 - bytesIn temp (liveSlots temp n) +
    (slotOffset temp i + x - (4095 - bytesIn temp (liveSlots temp n))) = slotOffset temp i + x by omega] at hbyte

/-- On a buffer that held nothing of the old page, tuples that are where they were are in place. -/
theorem Slotted.inPlace (h : Slotted temp n) (hp : Packed temp junk (liveSlots temp n) page header)
    (hjunk : ∀ x < 4096, junk.byte x ≠ temp.byte x)
    (hkept : ∀ i ∈ liveSlots temp n,
      page.slice (slotOffset temp i) (slotSize temp i) = tupleAt temp i) : InPlace temp n := by
  have hend := hp.freeEnd
  have hroom := h.room
  have hcount := liveSlots_length_le temp n
  have hB : header.freeEnd.toNat = 4095 - bytesIn temp (liveSlots temp n) := by omega
  have hbytes : ∀ i ∈ liveSlots temp n, ∀ x < slotSize temp i,
      page.byte (slotOffset temp i + x) = temp.byte (slotOffset temp i + x) := by
    intro i hi
    exact Block.slice_eq_iff.mp (hkept i hi)
  have hlow : ∀ i ∈ liveSlots temp n, 4095 - bytesIn temp (liveSlots temp n) ≤ slotOffset temp i := by
    intro i hi
    by_contra hlt
    have hinside := h.inside i hi
    have hpos := h.size i (mem_liveSlots.mp hi).1
    have hfirst := hbytes i hi 0 hpos
    rw [Nat.add_zero, hp.between _ (by omega) (by omega)] at hfirst
    exact hjunk _ (by omega) hfirst
  refine ⟨hlow, ?_⟩
  rw [← hp.tuples, ← hB, Block.slice_eq_iff]
  intro x hx
  -- the tuples are as long as the space they lie in, so that every byte is one of a tuple
  have hrange : ∀ a ∈ (liveSlots temp n).map fun i => (slotOffset temp i, slotSize temp i),
      header.freeEnd.toNat ≤ a.1 ∧ a.1 + a.2 ≤ 4095 := by
    intro a ha
    obtain ⟨i, hi, rfl⟩ := List.mem_map.mp ha
    exact ⟨hB ▸ hlow i hi, (h.inside i hi).2⟩
  have hsum : 4095 - header.freeEnd.toNat ≤
      (((liveSlots temp n).map fun i => (slotOffset temp i, slotSize temp i)).map (·.2)).sum := by
    rw [List.map_map]
    change _ ≤ bytesIn temp (liveSlots temp n)
    omega
  obtain ⟨a, ha, hle, hlt⟩ := Range.covers h.apart hrange hsum
    (show header.freeEnd.toNat ≤ header.freeEnd.toNat + x by omega) (by omega)
  obtain ⟨i, hi, rfl⟩ := List.mem_map.mp ha
  have hbyte := hbytes i hi (header.freeEnd.toNat + x - slotOffset temp i) (by omega)
  rw [show slotOffset temp i + (header.freeEnd.toNat + x - slotOffset temp i) =
    header.freeEnd.toNat + x by omega] at hbyte
  exact hbyte.symm

end Kept

section Calls

variable {pid : PageId} {d : DiskManager} {temp : Page} {n : Nat}

theorem Slotted.keepsTuples (h : Slotted temp n) (hread : d.file pid = some temp)
    (hflag : (extractHeader temp).flags &&& COMPACTABLE ≠ 0) (hstop : EndsLoop temp n)
    (hin : InPlace temp n) : KeepsTuples pid d temp n := by
  obtain ⟨d', page, header, hp, hrun, hpage⟩ := h.defragment_ok hread hflag hstop
  exact ⟨d', _, hrun, hpage, (hp.readSlots_iff h.offset_ge).mpr (hin.kept h hp)⟩

/-- A run on a buffer that held nothing of the old page tells whether its tuples are in place. -/
theorem Slotted.inPlace_of_keepsTuples (h : Slotted temp n) (hread : d.file pid = some temp)
    (hflag : (extractHeader temp).flags &&& COMPACTABLE ≠ 0)
    (hjunk : ∀ x < 4096, (d.junk 0).byte x ≠ temp.byte x) (hkeep : KeepsTuples pid d temp n) :
    EndsLoop temp n ∧ InPlace temp n := by
  obtain ⟨d', page, hrun, hpage, hslots⟩ := hkeep
  have hlen := congrArg List.length hslots
  simp only [readSlots, tuplesAt, List.length_map, List.length_range] at hlen
  have hstop : EndsLoop temp n := h.endsLoop_of_ok hread hflag hrun hpage (by omega)
  obtain ⟨d'', page', header, hp, hrun', hpage'⟩ := h.defragment_ok hread hflag hstop
  cases hrun.symm.trans hrun'
  cases hpage.symm.trans hpage'
  exact ⟨hstop, h.inPlace hp hjunk ((hp.readSlots_iff h.offset_ge).mp hslots)⟩

/-- A table whose next page buffer holds nothing of the page. -/
def strangeTable (pid : PageId) (page : Page) : DiskManager :=
  { tableOf pid page with junk := fun _ x => page x + 1 }

theorem strangeTable_junk (pid : PageId) (page : Page) :
    ∀ x < 4096, ((strangeTable pid page).junk 0).byte x ≠ page.byte x := by
  intro x hx heq
  simp only [strangeTable, Block.byte, dif_pos hx] at heq
  have hval := congrArg UInt8.toNat heq
  rw [UInt8.toNat_add] at hval
  simp only [UInt8.reduceToNat] at hval
  omega

/-- Whatever the new page buffer held, `defragment` keeps the tuples that are left if and only if its loop ends at
`free_start` and the tuples already were where it copies them to. -/
theorem defragment_keeps_iff (h : Slotted temp n) (hflag : (extractHeader temp).flags &&& COMPACTABLE ≠ 0) :
    (∀ d : DiskManager, d.file pid = some temp → KeepsTuples pid d temp n) ↔
      EndsLoop temp n ∧ InPlace temp n := by
  constructor
  · intro hkeep
    have hread : (strangeTable pid temp).file pid = some temp := if_pos rfl
    exact h.inPlace_of_keepsTuples hread hflag (strangeTable_junk pid temp) (hkeep _ hread)
  · intro hc d hread
    exact h.keepsTuples hread hflag hc.1 hc.2

end Calls

/-- The second tuple is removed: the first one stays where it is. -/
theorem defragment_keeps_removedSecond :
    KeepsTuples 2 (tableOf 2 (twoTuples 4094 0 [])) (twoTuples 4094 0 []) 2 := by
  have hlive : liveSlots (twoTuples 4094 0 []) 2 = [0] := by decide +kernel
  have h : Slotted (twoTuples 4094 0 []) 2 := by
    refine ⟨by decide +kernel, by decide +kernel, by decide +kernel, by decide +kernel, ?_, ?_⟩
    · rw [hlive]
      decide +kernel
    · rw [hlive]
      exact List.pairwise_singleton ..
  exact (defragment_keeps_iff h (by decide +kernel)).mpr (by decide +kernel) _ rfl

/-- The first tuple is removed: the second one is copied to its place, and its pointer is not changed. -/
theorem defragment_keeps_fails :
    Slotted (twoTuples 0 4093 []) 2 ∧ (extractHeader (twoTuples 0 4093 [])).flags &&& COMPACTABLE ≠ 0 ∧
      (∀ x, 13 ≤ x → x < 4093 → (twoTuples 0 4093 []).byte x = 0) ∧
      ¬ ∀ d : DiskManager, d.file 2 = some (twoTuples 0 4093 []) → KeepsTuples 2 d (twoTuples 0 4093 []) 2 := by
  have hflag : (extractHeader (twoTuples 0 4093 [])).flags &&& COMPACTABLE ≠ 0 := by decide +kernel
  refine ⟨slotted_removedFirst, hflag, ?_, fun hkeep => ?_⟩
  · intro x hlo hhi
    rw [twoTuples, constructPageHeaderBuf, Block.byte_blit_disjoint _ (.inr (by simp; omega)),
      Block.byte_blit_disjoint _ (.inl hhi), Block.byte_blit_disjoint _ (.inr hlo),
      Block.byte_blit_disjoint _ (.inr hlo), Block.byte_blit_disjoint _ (.inr (by simp [TuplePtr.bytes]; omega)),
      Block.byte_zero]
  have hread : (strangeTable 2 (twoTuples 0 4093 [])).file 2 = some (twoTuples 0 4093 []) := rfl
  have hin := (slotted_removedFirst.inPlace_of_keepsTuples hread hflag (strangeTable_junk 2 _)
    (hkeep _ hread)).2
  revert hin
  decide +kernel

end SomeDB
