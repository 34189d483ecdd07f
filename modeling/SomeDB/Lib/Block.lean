import Mathlib.Algebra.Order.Ring.Nat
import Mathlib.Data.List.Basic

/-!
# Blocks of bytes

`Block n` is a block of `n` bytes of memory or of a file. `blit` writes bytes at an offset, `slice`
reads them. The lemmas say what a read sees after a write: the written bytes in the written range
(`slice_blit`), the old ones where the ranges are apart (`slice_blit_disjoint`).

Bytes past the end of a block read as 0 and are dropped by a write. A model of a program checks the
range before it reads or writes.
-/

namespace Lib

/-- `n` bytes. -/
def Block (n : Nat) : Type := Fin n → UInt8

namespace Block

variable {n : Nat}

/-- A block of zero bytes. -/
def zero : Block n := fun _ => 0

/-- The byte at offset `i`. -/
def byte (b : Block n) (i : Nat) : UInt8 := if h : i < n then b ⟨i, h⟩ else 0

/-- The `len` bytes from `off` on. -/
def slice (b : Block n) (off len : Nat) : List UInt8 := (List.range len).map fun i => b.byte (off + i)

/-- `b` with `bs` written from `off` on. -/
def blit (b : Block n) (off : Nat) (bs : List UInt8) : Block n := fun i =>
  if off ≤ i.val ∧ i.val < off + bs.length then bs.getD (i.val - off) 0 else b i

@[ext] theorem ext {b c : Block n} (h : ∀ i < n, b.byte i = c.byte i) : b = c := by
  funext i
  have := h i.val i.isLt
  simpa [byte] using this

@[simp] theorem slice_length (b : Block n) (off len : Nat) : (b.slice off len).length = len := by
  simp [slice]

@[simp] theorem slice_zero (b : Block n) (off : Nat) : b.slice off 0 = [] := rfl

theorem getElem_slice (b : Block n) (off len i : Nat) (h : i < (b.slice off len).length) :
    (b.slice off len)[i] = b.byte (off + i) := by
  simp [slice]

theorem slice_succ (b : Block n) (off len : Nat) :
    b.slice off (len + 1) = b.byte off :: b.slice (off + 1) len := by
  apply List.ext_getElem
  · simp
  · intro i h₁ h₂
    rw [getElem_slice]
    cases i with
    | zero => simp
    | succ i => rw [List.getElem_cons_succ, getElem_slice]; congr 1; omega

theorem slice_one (b : Block n) (off : Nat) : b.slice off 1 = [b.byte off] := by
  rw [slice_succ, slice_zero]

theorem slice_add (b : Block n) (off k l : Nat) :
    b.slice off (k + l) = b.slice off k ++ b.slice (off + k) l := by
  apply List.ext_getElem
  · simp
  · intro i h₁ h₂
    rw [getElem_slice, List.getElem_append]
    split
    · rw [getElem_slice]
    · next h => rw [getElem_slice]; simp only [slice_length] at h ⊢; congr 1; omega

theorem slice_eq_iff {b c : Block n} {off len : Nat} :
    b.slice off len = c.slice off len ↔ ∀ i < len, b.byte (off + i) = c.byte (off + i) := by
  simp [slice]

theorem byte_blit (b : Block n) (off i : Nat) (bs : List UInt8) (hi : i < n) :
    (b.blit off bs).byte i =
      if off ≤ i ∧ i < off + bs.length then bs.getD (i - off) 0 else b.byte i := by
  simp [byte, blit, hi]

theorem byte_blit_disjoint (b : Block n) {off i : Nat} {bs : List UInt8}
    (h : i < off ∨ off + bs.length ≤ i) : (b.blit off bs).byte i = b.byte i := by
  by_cases hi : i < n
  · rw [byte_blit _ _ _ _ hi, if_neg (by omega)]
  · simp [byte, hi]

/-- A read of the written range gives the written bytes. -/
theorem slice_blit (b : Block n) (off : Nat) (bs : List UInt8) (h : off + bs.length ≤ n) :
    (b.blit off bs).slice off bs.length = bs := by
  apply List.ext_getElem
  · simp
  · intro i h₁ h₂
    rw [getElem_slice, byte_blit _ _ _ _ (by omega), if_pos (by omega)]
    simp [List.getD_eq_getElem?_getD, h₂]

/-- `slice_blit` for a length that is known otherwise. -/
theorem slice_blit_of_length (b : Block n) {off len : Nat} {bs : List UInt8} (hl : bs.length = len)
    (h : off + len ≤ n) : (b.blit off bs).slice off len = bs := by
  subst hl; exact slice_blit b off bs h

/-- A read of a range that does not overlap the written one is unchanged. -/
theorem slice_blit_disjoint (b : Block n) {off off' len : Nat} {bs : List UInt8}
    (h : off' + len ≤ off ∨ off + bs.length ≤ off') :
    (b.blit off bs).slice off' len = b.slice off' len := by
  apply List.ext_getElem
  · simp
  · intro i h₁ h₂
    rw [getElem_slice, getElem_slice, byte_blit_disjoint]
    simp only [slice_length] at h₁
    omega

theorem byte_zero (i : Nat) : (zero : Block n).byte i = 0 := by
  simp [byte, zero]

end Block

end Lib
