import SomeDB.Lib.Block

/-!
# Files of bytes

`File`: the bytes of a file and their number. `write` puts a block at an offset, behind the end too; `read` reads a
block as far as the file goes.

A file is also a list of blocks of `n` bytes (`blocks`). Where a block is written at a multiple of `n`, the list is
overwritten there, and a block further on comes behind zero blocks (`blocks_write`).
-/

namespace Lib

/-- The bytes of a file. -/
structure File where
  size : Nat
  byte : Nat → UInt8
  /-- Past the end there is nothing. -/
  byte_past : ∀ i, size ≤ i → byte i = 0

/-- `xs` with `b` in place `k`; zero blocks fill the places between. -/
def overwrite {n : Nat} (xs : List (Block n)) (k : Nat) (b : Block n) : List (Block n) :=
  (xs ++ List.replicate (k + 1 - xs.length) Block.zero).set k b

section Overwrite

variable {n : Nat} {xs : List (Block n)} {k j : Nat} {b : Block n}

theorem overwrite_length : (overwrite xs k b).length = max xs.length (k + 1) := by
  rw [overwrite, List.length_set, List.length_append, List.length_replicate]
  omega

theorem getElem?_overwrite_same : (overwrite xs k b)[k]? = some b := by
  rw [overwrite, List.getElem?_set_self]
  rw [List.length_append, List.length_replicate]
  omega

theorem getElem?_overwrite_ne (hj : j ≠ k) (hlt : j < xs.length ∨ k < j) : (overwrite xs k b)[j]? = xs[j]? := by
  rw [overwrite, List.getElem?_set_ne (Ne.symm hj)]
  rcases Nat.lt_or_ge j xs.length with h | h
  · exact List.getElem?_append_left h
  · rw [List.getElem?_eq_none h, List.getElem?_eq_none]
    rw [List.length_append, List.length_replicate]
    omega

/-- A place that is filled. -/
theorem getElem?_overwrite_gap (hge : xs.length ≤ j) (hlt : j < k) : (overwrite xs k b)[j]? = some Block.zero := by
  rw [overwrite, List.getElem?_set_ne (by omega), List.getElem?_append_right hge]
  exact List.getElem?_replicate_of_lt (by omega)

end Overwrite

namespace File

variable {n : Nat}

/-- A new file. -/
def empty : File := ⟨0, fun _ => 0, fun _ _ => rfl⟩

/-- The file with `b`, of one byte at least, from `off` on. -/
def write (f : File) (off : Nat) (b : Block n) : File where
  size := max f.size (off + n)
  byte i := if off ≤ i ∧ i < off + n then b.byte (i - off) else f.byte i
  byte_past i hi := by
    rw [if_neg (by omega)]
    exact f.byte_past i (by omega)

/-- What the buffer `b` holds after a read from `off` on. -/
def read (f : File) (off : Nat) (b : Block n) : Block n := fun i =>
  if off + i < f.size then f.byte (off + i) else b i

/-- The block `k`. -/
def block (n : Nat) (f : File) (k : Nat) : Block n := fun i => f.byte (n * k + i)

/-- The blocks that lie in the file as a whole. -/
def blocks (n : Nat) (f : File) : List (Block n) := (List.range (f.size / n)).map (f.block n)

variable {f : File} {k j : Nat} {b : Block n}

@[simp] theorem size_write (off : Nat) : (f.write off b).size = max f.size (off + n) := rfl

theorem blocks_length : (f.blocks n).length = f.size / n := by
  simp [blocks]

theorem getElem?_blocks (h : k < f.size / n) : (f.blocks n)[k]? = some (f.block n k) := by
  simp [blocks, h]

theorem getElem?_blocks_none (h : f.size / n ≤ k) : (f.blocks n)[k]? = none :=
  List.getElem?_eq_none (by rw [blocks_length]; exact h)

/-- A block that lies in the file is read whole. -/
theorem read_block (h : n * k + n ≤ f.size) (b : Block n) : f.read (n * k) b = f.block n k := by
  funext i
  have hi := i.isLt
  exact if_pos (by omega)

theorem block_write_same : (f.write (n * k) b).block n k = b := by
  funext i
  have hi := i.isLt
  have hbyte : (f.write (n * k) b).byte (n * k + i) = b.byte (n * k + i - n * k) := if_pos (by omega)
  rw [block, hbyte, Nat.add_sub_cancel_left, Block.byte, dif_pos hi]

theorem block_write_ne (h : j ≠ k) : (f.write (n * k) b).block n j = f.block n j := by
  funext i
  have hi := i.isLt
  refine if_neg fun ⟨hge, hlt⟩ => ?_
  rcases Nat.lt_or_gt_of_ne h with hjk | hjk
  · have := Nat.mul_le_mul_left n (Nat.succ_le_of_lt hjk)
    rw [Nat.mul_succ] at this
    omega
  · have := Nat.mul_le_mul_left n (Nat.succ_le_of_lt hjk)
    rw [Nat.mul_succ] at this
    omega

theorem block_past (h : f.size ≤ n * k) : f.block n k = Block.zero := by
  funext i
  exact f.byte_past _ (by omega)

theorem dvd_size_write (h : n ∣ f.size) : n ∣ (f.write (n * k) b).size := by
  rcases Nat.le_total f.size (n * k + n) with hle | hle
  · rw [size_write, Nat.max_eq_right hle]
    exact Nat.dvd_add (Nat.dvd_mul_right n k) (Nat.dvd_refl n)
  · rw [size_write, Nat.max_eq_left hle]
    exact h

theorem size_write_div (hn : 0 < n) (h : n ∣ f.size) : (f.write (n * k) b).size / n = max (f.size / n) (k + 1) := by
  obtain ⟨m, hm⟩ := h
  have hsize : (f.write (n * k) b).size = n * max m (k + 1) := by
    rw [size_write, hm, ← Nat.mul_succ, Nat.mul_max_mul_left]
  rw [hsize, hm, Nat.mul_div_cancel_left _ hn, Nat.mul_div_cancel_left _ hn]

/-- Writing a block overwrites the list of blocks. -/
theorem blocks_write (hn : 0 < n) (h : n ∣ f.size) :
    (f.write (n * k) b).blocks n = overwrite (f.blocks n) k b := by
  have hsize := size_write_div (k := k) (b := b) hn h
  apply List.ext_getElem?
  intro j
  rcases Nat.lt_or_ge j (max (f.size / n) (k + 1)) with hj | hj
  · rw [getElem?_blocks (by rw [hsize]; exact hj)]
    by_cases hjk : j = k
    · rw [hjk, block_write_same, getElem?_overwrite_same]
    · rw [block_write_ne hjk]
      rcases Nat.lt_or_ge j (f.size / n) with hin | hout
      · rw [getElem?_overwrite_ne hjk (.inl (by rw [blocks_length]; exact hin)), getElem?_blocks hin]
      · have hpast : f.size ≤ n * j := by
          rw [← Nat.mul_div_cancel' h]
          exact Nat.mul_le_mul_left n hout
        rw [block_past hpast, getElem?_overwrite_gap (by rw [blocks_length]; exact hout) (by omega)]
  · rw [getElem?_blocks_none (by rw [hsize]; exact hj), List.getElem?_eq_none]
    rw [overwrite_length, blocks_length]
    exact hj

end File

end Lib
