import SomeDB.Index.PageCodec
import SomeDB.Lib.Intervals

/-!
# The slot directory of a serialized node

`serialize()` writes the pairs in reverse order: the slot `i` belongs to the key `n - 1 - i`. Nothing reads
the slots. `serializeLoop_slots` says what the loop leaves in them, and `serialize_slotDirectory` that the
ranges they give are those of the pairs, which tile the page behind the available space.
-/

namespace SomeDB

open Lib

/-- The offset and the size in the slot `i`. -/
def kvRange (page : Page) (i : Nat) : Range :=
  ((decodeUint16 (page.slice (26 + 4 * i) 2)).toNat, (decodeUint16 (page.slice (26 + 4 * i + 2) 2)).toNat)

/-- The header and the slots of the page are those of the node. -/
structure SlotDirectory (p : BTreePage) (page : Page) : Prop where
  spaceStart : (decodeUint16 (page.slice 0 2)).toNat = 26 + 4 * p.keys.length
  spaceEnd : (decodeUint16 (page.slice 2 2)).toNat = 4096 - p.pairsSize
  below : 26 + 4 * p.keys.length ≤ 4096 - p.pairsSize
  pair : ∀ i < p.keys.length, ∃ key vb, p.keys[p.keys.length - 1 - i]? = some key ∧
    p.valBufs[p.keys.length - 1 - i]? = some vb ∧ (kvRange page i).2 = 1 + key.length + vb.length ∧
    page.slice (kvRange page i).1 (kvRange page i).2 = kvBytes key vb
  apart : ((List.range p.keys.length).map (kvRange page)).Pairwise Range.Apart
  tile : Range.cells ((List.range p.keys.length).map (kvRange page)) = Finset.Ico (4096 - p.pairsSize) 4096

namespace BTreePage

variable {p : BTreePage}

/-- Where the pair `j` begins behind the first one. -/
def pairOffset (p : BTreePage) (j : Nat) : Nat := (p.prefixBytes j).length

@[simp] theorem pairOffset_zero (p : BTreePage) : p.pairOffset 0 = 0 := by
  simp [pairOffset, prefixBytes]

theorem pairOffset_succ {j : Nat} {key : BTreeKey} {vb : List UInt8} (hk : p.keys[j]? = some key)
    (hv : p.valBufs[j]? = some vb) : p.pairOffset (j + 1) = p.pairOffset j + (kvBytes key vb).length := by
  rw [pairOffset, prefixBytes_succ hk hv, List.length_append, pairOffset]

theorem pairOffset_mono (p : BTreePage) {i j : Nat} (h : i ≤ j) : p.pairOffset i ≤ p.pairOffset j := by
  have htake : p.kvs.take i = (p.kvs.take j).take i := by rw [List.take_take, Nat.min_eq_left h]
  have hsplit := congrArg List.flatten (List.take_append_drop i (p.kvs.take j))
  rw [List.flatten_append] at hsplit
  rw [pairOffset, pairOffset, prefixBytes, prefixBytes, ← hsplit, htake, List.length_append]
  omega

/-- With a value for each key there is a pair for each index. -/
theorem exists_pair (hv : p.keys.length ≤ p.valCount) {j : Nat} (hj : j < p.keys.length) :
    ∃ key vb, p.keys[j]? = some key ∧ p.valBufs[j]? = some vb :=
  ⟨_, _, List.getElem?_eq_getElem hj, List.getElem?_eq_getElem (by rw [valBufs_length]; omega)⟩

/-- The pair `j` in the bytes of all pairs. -/
theorem prefixBytes_pair {j : Nat} {key : BTreeKey} {vb : List UInt8}
    (hk : p.keys[j]? = some key) (hvb : p.valBufs[j]? = some vb) :
    ∃ rest, p.prefixBytes p.keys.length = p.prefixBytes j ++ (kvBytes key vb ++ rest) := by
  have hj := (List.getElem?_eq_some_iff.mp hk).1
  refine ⟨((p.kvs.take p.keys.length).drop (j + 1)).flatten, ?_⟩
  have hsplit := congrArg List.flatten (List.take_append_drop (j + 1) (p.kvs.take p.keys.length))
  rw [List.flatten_append, List.take_take, Nat.min_eq_left (by omega)] at hsplit
  have hnext := prefixBytes_succ hk hvb
  rw [prefixBytes] at hnext
  rw [← List.append_assoc, ← hnext, hsplit, prefixBytes]

/-- The loop leaves the slots of the pairs `i - 1, .., 0` at `s`, one after the other, and what lies below
`s` as it was. -/
theorem serializeLoop_slots (hv : p.keys.length ≤ p.valCount) (i : Nat) (data : Page) (s e : Nat)
    (hi : i ≤ p.keys.length) (he : e ≤ 4096) (hs : s + 4 * i + p.pairOffset i ≤ e) :
    ∃ data', p.serializeLoop i data s e = .ok (data', s + 4 * i, e - p.pairOffset i) ∧
      (∀ off len, off + len ≤ s → data'.slice off len = data.slice off len) ∧
      ∀ j key vb, j < i → p.keys[j]? = some key → p.valBufs[j]? = some vb →
        data'.slice (s + 4 * (i - 1 - j)) 4 =
          kvSlot (e - p.pairOffset i + p.pairOffset j) (kvBytes key vb).length := by
  induction i generalizing data s e with
  | zero => exact ⟨data, by simp [serializeLoop], fun _ _ _ => rfl, fun j _ _ hj => absurd hj (Nat.not_lt_zero j)⟩
  | succ i ih =>
    obtain ⟨key, vb, hk, hvb⟩ := exists_pair hv (show i < p.keys.length by omega)
    have hoff := pairOffset_succ hk hvb
    rw [serializeLoop_succ hk hvb data he (by omega)]
    obtain ⟨data', hrun, hframe, hslots⟩ := ih (withPair data s e (kvBytes key vb)) (s + 4)
      (e - (kvBytes key vb).length) (by omega) (by omega) (by omega)
    refine ⟨data', ?_, fun off len hle => ?_, fun j key' vb' hj hk' hvb' => ?_⟩
    · rw [hrun, hoff, show s + 4 + 4 * i = s + 4 * (i + 1) by omega, Nat.sub_sub,
        Nat.add_comm (p.pairOffset i)]
    · rw [hframe off len (by omega), withPair, Block.slice_blit_disjoint _ (by omega),
        Block.slice_blit_disjoint _ (by omega)]
    · rcases Nat.lt_or_eq_of_le (Nat.le_of_lt_succ hj) with hlt | rfl
      · rw [show s + 4 * (i + 1 - 1 - j) = s + 4 + 4 * (i - 1 - j) by omega, hslots j key' vb' hlt hk' hvb',
          hoff]
        congr 1
        omega
      · -- the slot of this turn: the later turns write behind it
        cases hk.symm.trans hk'
        cases hvb.symm.trans hvb'
        rw [show s + 4 * (j + 1 - 1 - j) = s by omega, hframe s 4 (Nat.le_refl _), withPair,
          Block.slice_blit_of_length _ (kvSlot_length ..) (by omega), hoff]
        congr 1
        omega

end BTreePage

/-- A slot is read as the range that was written. -/
theorem kvRange_of_slot {page : Page} {i start size : Nat} (h : page.slice (26 + 4 * i) 4 = kvSlot start size)
    (hstart : start < 65536) (hsize : size < 65536) : kvRange page i = (start, size) := by
  rw [show (4 : Nat) = 2 + 2 from rfl, Block.slice_add, kvSlot] at h
  obtain ⟨h₁, h₂⟩ := List.append_inj h (by simp)
  rw [kvRange, h₁, h₂, decodeUint16_encodeUint16, decodeUint16_encodeUint16, UInt16.toNat_ofNat',
    UInt16.toNat_ofNat', Nat.mod_eq_of_lt hstart, Nat.mod_eq_of_lt hsize]

/-- The slot `i` gives the range of the pair of the key `n - 1 - i`. -/
def SlotsGive (p : BTreePage) (page : Page) : Prop :=
  ∀ i < p.keys.length, ∃ key vb, p.keys[p.keys.length - 1 - i]? = some key ∧
    p.valBufs[p.keys.length - 1 - i]? = some vb ∧
    kvRange page i = (4096 - p.pairsSize + p.pairOffset (p.keys.length - 1 - i), (kvBytes key vb).length) ∧
    p.pairOffset (p.keys.length - i) = p.pairOffset (p.keys.length - 1 - i) + (kvBytes key vb).length

section SlotsGive

variable {p : BTreePage} {page : Page}

theorem SlotsGive.apart (h : SlotsGive p page) :
    ((List.range p.keys.length).map (kvRange page)).Pairwise Range.Apart := by
  rw [List.pairwise_map]
  refine List.pairwise_lt_range.imp_of_mem fun {i j} hi hj hij => .inr ?_
  obtain ⟨_, _, -, -, heq, -⟩ := h i (List.mem_range.mp hi)
  obtain ⟨_, _, -, -, heq', hsucc'⟩ := h j (List.mem_range.mp hj)
  have hle := p.pairOffset_mono (show p.keys.length - j ≤ p.keys.length - 1 - i by omega)
  rw [heq, heq']
  simp only
  omega

/-- A byte of the first `k` pairs lies in the range of a slot. -/
theorem SlotsGive.exists_range (h : SlotsGive p page) {x : Nat} (hlo : 4096 - p.pairsSize ≤ x) {k : Nat}
    (hk : k ≤ p.keys.length) (hx : x < 4096 - p.pairsSize + p.pairOffset k) :
    ∃ i < p.keys.length, (kvRange page i).1 ≤ x ∧ x < (kvRange page i).1 + (kvRange page i).2 := by
  induction k with
  | zero =>
    rw [BTreePage.pairOffset_zero] at hx
    omega
  | succ k ih =>
    by_cases hlt : x < 4096 - p.pairsSize + p.pairOffset k
    · exact ih (by omega) hlt
    · obtain ⟨key, vb, -, -, heq, hsucc⟩ := h (p.keys.length - 1 - k) (by omega)
      rw [show p.keys.length - 1 - (p.keys.length - 1 - k) = k by omega] at heq hsucc
      rw [show p.keys.length - (p.keys.length - 1 - k) = k + 1 by omega] at hsucc
      refine ⟨p.keys.length - 1 - k, by omega, ?_⟩
      rw [heq]
      simp only
      omega

theorem SlotsGive.tile (h : SlotsGive p page) (hall : p.pairOffset p.keys.length = p.pairsSize)
    (hle : p.pairsSize ≤ 4096) :
    Range.cells ((List.range p.keys.length).map (kvRange page)) = Finset.Ico (4096 - p.pairsSize) 4096 := by
  ext x
  rw [Range.mem_cells, Finset.mem_Ico]
  constructor
  · rintro ⟨a, ha, hx⟩
    obtain ⟨i, hi, rfl⟩ := List.mem_map.mp ha
    obtain ⟨key, vb, -, -, heq, hsucc⟩ := h i (List.mem_range.mp hi)
    have hmono := p.pairOffset_mono (show p.keys.length - i ≤ p.keys.length by omega)
    rw [heq] at hx
    simp only at hx
    omega
  · rintro ⟨hlo, hhi⟩
    obtain ⟨i, hi, hx⟩ := h.exists_range hlo (Nat.le_refl _) (show x < 4096 - p.pairsSize + p.pairOffset _ by omega)
    exact ⟨_, List.mem_map_of_mem (List.mem_range.mpr hi), hx⟩

end SlotsGive

/-- **The slot directory.** The slots of a serialized node give the ranges of its pairs, the last one first, and
these tile the page from the end of the available space on. -/
theorem serialize_slotDirectory (p : BTreePage) (buf : Page) (hvals : p.valCount = p.keys.length)
    (hfit : 26 + 4 * p.keys.length + p.pairsSize ≤ 4096) :
    ∃ page, p.serializeInto buf = .ok page ∧ SlotDirectory p page := by
  have hv : p.keys.length ≤ p.valCount := Nat.le_of_eq hvals.symm
  have hall : p.pairOffset p.keys.length = p.pairsSize := BTreePage.prefixBytes_length_eq hv
  obtain ⟨data, hrun, -, hslots⟩ := BTreePage.serializeLoop_slots hv p.keys.length buf 26 4096 (Nat.le_refl _)
    (Nat.le_refl _) (by omega)
  obtain ⟨data', hrun', hpairs⟩ := BTreePage.serializeLoop_spec hv p.keys.length buf 26 4096 (Nat.le_refl _)
    (Nat.le_refl _) (by rw [← BTreePage.pairOffset, hall]; omega)
  rw [← BTreePage.pairOffset, hall] at hrun' hpairs
  rw [hall] at hrun hslots
  cases hrun.symm.trans hrun'
  rw [Nat.sub_self, Block.slice_zero, List.append_nil] at hpairs
  refine ⟨_, by rw [BTreePage.serializeInto, INDEX_PAGE_HEADER_SIZE, hrun]; rfl, ?_⟩
  set page := data.blit 0 (p.headerBytes (26 + 4 * p.keys.length) (4096 - p.pairsSize)) with hpage
  have hkeep : ∀ off len, 14 ≤ off → page.slice off len = data.slice off len := by
    intro off len hoff
    exact Block.slice_blit_disjoint data (by simp [BTreePage.headerBytes]; omega)
  have hgive : SlotsGive p page := by
    intro i hi
    obtain ⟨key, vb, hk, hvb⟩ := BTreePage.exists_pair hv (show p.keys.length - 1 - i < p.keys.length by omega)
    have hsucc := BTreePage.pairOffset_succ hk hvb
    rw [show p.keys.length - 1 - i + 1 = p.keys.length - i by omega] at hsucc
    have hle := p.pairOffset_mono (show p.keys.length - i ≤ p.keys.length by omega)
    have hslot := hslots _ key vb (show p.keys.length - 1 - i < p.keys.length by omega) hk hvb
    rw [show p.keys.length - 1 - (p.keys.length - 1 - i) = i by omega, ← hkeep _ _ (by omega)] at hslot
    exact ⟨key, vb, hk, hvb, kvRange_of_slot hslot (by omega) (by omega), hsucc⟩
  have hstart : decodeUint16 (page.slice 0 2) = UInt16.ofNat (26 + 4 * p.keys.length) := by
    have hslice : page.slice 0 (2 + 12) = p.headerBytes (26 + 4 * p.keys.length) (4096 - p.pairsSize) :=
      Block.slice_blit_of_length data (by simp [BTreePage.headerBytes]) (by decide)
    simp only [Block.slice_add, BTreePage.headerBytes, List.append_assoc] at hslice
    rw [(List.append_inj hslice (by simp)).1, decodeUint16_encodeUint16]
  refine ⟨?_, ?_, by omega, fun i hi => ?_, hgive.apart, hgive.tile hall (by omega)⟩
  · rw [hstart, UInt16.toNat_ofNat', Nat.mod_eq_of_lt (by omega)]
  · rw [(header_slices data p _ _).1, UInt16.toNat_ofNat', Nat.mod_eq_of_lt (by omega)]
  · obtain ⟨key, vb, hk, hvb, heq, hsucc⟩ := hgive i hi
    obtain ⟨rest, hsplit⟩ := BTreePage.prefixBytes_pair hk hvb
    have hle := p.pairOffset_mono (show p.keys.length - i ≤ p.keys.length by omega)
    refine ⟨key, vb, hk, hvb, by rw [heq, kvBytes_length], ?_⟩
    -- cut the bytes of all pairs around this one
    have hlen : 4096 - (4096 - p.pairsSize) = p.pairOffset (p.keys.length - 1 - i) +
        ((kvBytes key vb).length + (p.pairsSize - p.pairOffset (p.keys.length - i))) := by omega
    rw [hsplit, hlen, Block.slice_add, Block.slice_add] at hpairs
    obtain ⟨-, hpairs⟩ := List.append_inj hpairs (by rw [Block.slice_length]; rfl)
    rw [heq, hkeep _ _ (by omega)]
    exact (List.append_inj hpairs (by simp)).1

theorem serialize_slotDirectory_testLeaf :
    ∃ page, BTreePage.testLeaf.serializeInto Block.zero = .ok page ∧ SlotDirectory BTreePage.testLeaf page :=
  serialize_slotDirectory BTreePage.testLeaf Block.zero (by decide) (by decide)

end SomeDB
