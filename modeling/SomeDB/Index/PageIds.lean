import Mathlib.Data.List.Nodup
import SomeDB.Index.View

/-!
# The ids of index pages

`new_btree_index_page` hands out the next value of the 16-bit counter on the metadata page. The first 65535
pages of an index have the ids from 1 on, each with the metadata intact (`newBtreeIndexPage_ids`); the next
one is page 0 itself (`newBtreeIndexPage_wraps`).
-/

namespace SomeDB

open Lib

/-- Page 0 decodes to the metadata of an index with `maxKeys` and `n` nodes. -/
def DecodesTo (maxKeys : UInt8) (n : Nat) (d : Disk) : Prop :=
  ∃ data, d 0 = some data ∧ decodeUint32 (data.slice 0 4) = BTREE_INDEX ∧ data.byte 6 = maxKeys ∧
    (decodeUint16 (data.slice 4 2)).toNat = n

/-- The ids of the first `n` pages. -/
def firstIds (n : Nat) : List PageId := (List.range n).map fun i => UInt32.ofNat (i + 1)

theorem toNat_ofNat_of_le {n : Nat} (hn : n ≤ 65535) : (UInt32.ofNat n).toNat = n := by
  rw [UInt32.toNat_ofNat']
  exact Nat.mod_eq_of_lt (by omega)

theorem nodup_firstIds {n : Nat} (hn : n ≤ 65535) : (firstIds n).Nodup := by
  refine List.Nodup.map_on ?_ List.nodup_range
  intro i hi j hj heq
  have hi' := List.mem_range.mp hi
  have hj' := List.mem_range.mp hj
  have := congrArg UInt32.toNat heq
  rw [toNat_ofNat_of_le (by omega), toNat_ofNat_of_le (by omega)] at this
  omega

theorem zero_notMem_firstIds {n : Nat} (hn : n ≤ 65535) : 0 ∉ firstIds n := by
  intro h
  obtain ⟨i, hi, heq⟩ := List.mem_map.mp h
  have hi' := List.mem_range.mp hi
  have := congrArg UInt32.toNat heq
  rw [toNat_ofNat_of_le (by omega)] at this
  cases this

/-- The counter after `n` pages. -/
theorem next_toUInt32 {n : Nat} (hn : n < 65535) :
    (UInt16.ofNat n + 1).toUInt32 = UInt32.ofNat (n + 1) ∧ (UInt16.ofNat n + 1).toUInt32 ≠ 0 := by
  have hnat : (UInt16.ofNat n + 1).toUInt32.toNat = n + 1 := by
    rw [UInt16.toNat_toUInt32, UInt16.toNat_add, UInt16.toNat_ofNat']
    simp only [UInt16.toNat_one]
    omega
  constructor
  · apply UInt32.toNat.inj
    rw [hnat, toNat_ofNat_of_le (by omega)]
  · intro h
    rw [h] at hnat
    cases hnat

/-- As long as the counter does not wrap, the ids are in order and the metadata page counts them. -/
theorem newBtreeIndexPage_ids (maxKeys : UInt8) (flags : List Bool) (hlen : flags.length ≤ 65535) :
    ∃ d data, Prog.runAll newBtreeIndexPage flags (createBtreeIndex maxKeys) =
        (.ok (firstIds flags.length), d) ∧
      d 0 = some data ∧ MetaPage data (UInt16.ofNat flags.length) maxKeys 0 := by
  let Inv (is : List Bool) (ids : List PageId) (d : Disk) : Prop := ids = firstIds is.length ∧
    ∃ data, d 0 = some data ∧ MetaPage data (UInt16.ofNat is.length) maxKeys 0
  have hstep : ∀ is ids d isLeaf, is ++ [isLeaf] <+: flags → Inv is ids d → True →
      ∃ pid d', newBtreeIndexPage isLeaf d = (.ok pid, d') ∧ Inv (is ++ [isLeaf]) (ids ++ [pid]) d' := by
    rintro is ids d isLeaf hprefix ⟨rfl, data, hd, hmeta⟩ -
    have hle := hprefix.length_le
    rw [List.length_append, List.length_singleton] at hle
    obtain ⟨hid, hne⟩ := next_toUInt32 (n := is.length) (by omega)
    refine ⟨_, _, Shows.newBtreeIndexPage_run hd hmeta isLeaf, ?_,
      data.blit 4 (encodeUint16 (UInt16.ofNat is.length + 1)), ?_, ?_⟩
    · rw [hid, List.length_append, List.length_singleton]
      unfold firstIds
      rw [List.range_succ, List.map_append]
      rfl
    · rw [Disk.write_ne _ _ hne.symm, Disk.write_same]
    · have hcount : UInt16.ofNat (is ++ [isLeaf]).length = UInt16.ofNat is.length + 1 := by
        rw [List.length_append, UInt16.ofNat_add]
        rfl
      rw [hcount]
      exact Shows.metaPage_setCount hmeta _
  obtain ⟨data, hd, hmeta⟩ := Shows.metaPage_createBtreeIndex maxKeys
  obtain ⟨ids, d, hrun, rfl, data', hd', hmeta'⟩ :=
    Prog.runAll_inv (C := fun _ _ => True) Inv hstep ⟨rfl, data, hd, hmeta⟩
      (Prog.meets_of_forall (D := fun _ => True) (fun _ _ => trivial) _)
  exact ⟨d, data', hrun, hd', hmeta'⟩

/-- **Ids are not reused.** The ids are distinct and not 0, with the metadata right after every call, exactly
if there are at most 65535 calls. -/
theorem newBtreeIndexPage_ids_iff (maxKeys : UInt8) (flags : List Bool) :
    (∃ ids d, Prog.runAll newBtreeIndexPage flags (createBtreeIndex maxKeys) = (.ok ids, d) ∧ ids.Nodup ∧
      0 ∉ ids ∧ ∀ k, k ≤ flags.length → ∃ ids' d',
        Prog.runAll newBtreeIndexPage (flags.take k) (createBtreeIndex maxKeys) = (.ok ids', d') ∧
        DecodesTo maxKeys k d') ↔ flags.length ≤ 65535 := by
  constructor
  · rintro ⟨ids, d, -, -, -, hdecodes⟩
    obtain ⟨-, d', -, data, -, -, -, hcount⟩ := hdecodes flags.length (Nat.le_refl _)
    have := UInt16.toNat_lt (decodeUint16 (data.slice 4 2))
    omega
  · intro hlen
    obtain ⟨d, -, hrun, -, -⟩ := newBtreeIndexPage_ids maxKeys flags hlen
    refine ⟨_, d, hrun, nodup_firstIds hlen, zero_notMem_firstIds hlen, fun k hk => ?_⟩
    have htake : (flags.take k).length = k := List.length_take_of_le hk
    obtain ⟨d', data', hrun', hd', hmeta⟩ := newBtreeIndexPage_ids maxKeys (flags.take k) (by omega)
    refine ⟨_, d', hrun', data', hd', hmeta.magic, hmeta.max, ?_⟩
    rw [hmeta.count, htake, UInt16.toNat_ofNat']
    exact Nat.mod_eq_of_lt (by omega)

/-- The 65536th page is page 0, and its image replaces the metadata. -/
theorem newBtreeIndexPage_wraps : ∃ ids d,
    Prog.runAll newBtreeIndexPage (List.replicate 65536 false) (createBtreeIndex 2) = (.ok ids, d) ∧
      0 ∈ ids ∧ d 0 = some (freshNodePage false) := by
  have hsplit : List.replicate 65536 false = List.replicate 65535 false ++ [false] := List.replicate_succ'
  obtain ⟨d, data, hrun, hd, hmeta⟩ := newBtreeIndexPage_ids 2 (List.replicate 65535 false)
    (Nat.le_of_eq List.length_replicate)
  rw [List.length_replicate] at hmeta
  have hlast := Shows.newBtreeIndexPage_run hd hmeta false
  have hzero : (UInt16.ofNat 65535 + 1).toUInt32 = 0 := rfl
  rw [hsplit, Prog.runAll_concat_ok hrun hlast]
  refine ⟨_, _, rfl, List.mem_append_right _ ?_, ?_⟩
  · rw [hzero]
    exact List.mem_singleton.mpr rfl
  · rw [hzero, Disk.write_same]

end SomeDB
