import SomeDB.Index.PageCodec
import SomeDB.Disk.DiskManager

/-!
# The end of decoding

The loop of `BTreePage(u8*)` moves its cursor at every pair and, in a leaf, at every empty slot. At an empty
slot of an internal node it does not move it, so it ends on such a page exactly if it meets no empty slot
(`decode_ends_iff`). No number of turns is part of that: `DecodeEnds` asks for some number that is enough, and
4097, the number that the model allows, always is then (`DecodeEnds.decode`).
-/

namespace SomeDB

open Lib

/-- Some number of turns is enough for the loop of the constructor. -/
def DecodeEnds (data : Page) : Prop :=
  let cursor := (decodeUint16 (data.slice 2 2)).toNat
  if data.byte 13 ≠ 0 then ∃ turns, decodePairs data 8 decodeRid 8 turns cursor ≠ .error .diverges
  else ∃ turns, decodePairs data 4 decodeUint32 0 turns cursor ≠ .error .diverges

/-- From `c` on the page holds pairs, each with a key, up to its end. -/
inductive PairsToEnd (data : Page) (valSize : Nat) : Nat → Prop
  | done {c : Nat} (hc : 4096 ≤ c) : PairsToEnd data valSize c
  | pair {c : Nat} (hkey : data.byte c ≠ 0)
    (rest : PairsToEnd data valSize (c + 1 + (data.byte c).toNat + valSize)) : PairsToEnd data valSize c

section Scan

variable {α : Type} {data : Page} {valSize skip : Nat} {dec : List UInt8 → α} {n c : Nat}

/-- A pair is read and the scan goes on behind it. -/
theorem decodePairs_diverges_pair (hc : c < 4096) (hkey : data.byte c ≠ 0)
    (h : decodePairs data valSize dec skip (n + 1) c = .error .diverges) :
    decodePairs data valSize dec skip n (c + 1 + (data.byte c).toNat + valSize) = .error .diverges := by
  rw [decodePairs, if_pos hc] at h
  simp only [if_neg hkey] at h
  split at h
  · cases hrest : decodePairs data valSize dec skip n (c + 1 + (data.byte c).toNat + valSize) with
    | error e => simpa [hrest, bind, Except.bind] using h
    | ok rest => simp [hrest, bind, Except.bind] at h
  · cases h

/-- Where every turn moves the cursor, a turn for each byte that is left is enough. -/
theorem decodePairs_ends (hskip : 0 < skip) (hn : 4096 - c < n) :
    decodePairs data valSize dec skip n c ≠ .error .diverges := by
  induction n generalizing c with
  | zero => omega
  | succ n ih =>
    intro h
    by_cases hc : c < 4096
    · by_cases hkey : data.byte c = 0
      · rw [decodePairs, if_pos hc] at h
        simp only [if_pos hkey] at h
        exact ih (by omega) h
      · exact ih (by omega) (decodePairs_diverges_pair hc hkey h)
    · rw [decodePairs, if_neg hc] at h
      cases h

theorem PairsToEnd.ends (h : PairsToEnd data valSize c) (hn : 4096 - c < n) :
    decodePairs data valSize dec skip n c ≠ .error .diverges := by
  induction h generalizing n with
  | done hc =>
    obtain ⟨n, rfl⟩ : ∃ m, n = m + 1 := ⟨n - 1, by omega⟩
    rw [decodePairs, if_neg (by omega)]
    simp
  | @pair c hkey _ ih =>
    obtain ⟨n, rfl⟩ : ∃ m, n = m + 1 := ⟨n - 1, by omega⟩
    intro hrun
    by_cases hc : c < 4096
    · exact ih (by omega) (decodePairs_diverges_pair hc hkey hrun)
    · rw [decodePairs, if_neg hc] at hrun
      cases hrun

/-- A scan that never moves at an empty slot and ends has met none. -/
theorem pairsToEnd_of_ends (h : decodePairs data valSize dec 0 n c ≠ .error .diverges) :
    PairsToEnd data valSize c := by
  induction n generalizing c with
  | zero => exact absurd rfl h
  | succ n ih =>
    by_cases hc : c < 4096
    · rw [decodePairs, if_pos hc] at h
      by_cases hkey : data.byte c = 0
      · simp only [if_pos hkey] at h
        exact ih h
      · refine .pair hkey ?_
        simp only [if_neg hkey] at h
        split at h
        · refine ih fun hrest => h ?_
          simp [hrest, bind, Except.bind]
        · exact .done (by omega)
    · exact .done (by omega)

end Scan

/-- **The end of decoding.** The loop ends on the page of a leaf, and on that of an internal node if and only
if the page holds pairs with keys from the end of the available space on up to its own end. -/
theorem decode_ends_iff (data : Page) : DecodeEnds data ↔
    data.byte 13 ≠ 0 ∨ PairsToEnd data 4 (decodeUint16 (data.slice 2 2)).toNat := by
  unfold DecodeEnds
  by_cases hleaf : data.byte 13 = 0
  · simp only [hleaf, ne_eq, not_true_eq_false, if_false, false_or]
    exact ⟨fun ⟨_, h⟩ => pairsToEnd_of_ends h, fun h => ⟨4097, h.ends (by omega)⟩⟩
  · simp only [ne_eq, hleaf, not_false_eq_true, if_true, true_or, iff_true]
    exact ⟨4097, decodePairs_ends (by decide) (by omega)⟩

/-- The turns that the model allows are enough. -/
theorem DecodeEnds.decode {data : Page} (h : DecodeEnds data) :
    BTreePage.decode data ≠ .error .diverges := by
  have hbind : ∀ {α : Type} {x : Except Fault α} {f : α → BTreePage},
      x ≠ .error .diverges → (x >>= fun a => .ok (f a)) ≠ .error .diverges := by
    intro α x f hx
    cases x with
    | error e => simpa [bind, Except.bind] using hx
    | ok a => simp [bind, Except.bind]
  rw [decode_ends_iff] at h
  unfold BTreePage.decode
  simp only
  by_cases hleaf : data.byte 13 = 0
  · rw [if_neg (not_not.mpr hleaf)]
    exact hbind ((h.resolve_left (not_not.mpr hleaf)).ends (by omega))
  · rw [if_pos hleaf]
    exact hbind (decodePairs_ends (by decide) (by omega))

/-- The page that `new_btree_index_page` writes for an internal node: its first byte is an empty slot. -/
theorem decode_ends_fails : ¬ DecodeEnds (freshNodePage false) := by
  rw [decode_ends_iff]
  have hstart : (decodeUint16 ((freshNodePage false).slice 2 2)).toNat = 0 := by decide
  rw [hstart]
  rintro (hleaf | hpairs)
  · exact absurd hleaf (by decide)
  · cases hpairs with
    | done hc => omega
    | pair hkey => exact absurd hkey (by decide)

end SomeDB
