import SomeDB.Lib.Prog
import SomeDB.Lib.Block

/-!
# Shared types (`shared.h`, `disk_manager.h`)

A page is a block of `PAGE_SIZE` = 4096 bytes. `Fault` lists the ways in which a call does not
complete. An access that C or C++ leaves undefined (past the end of a buffer, through a null pointer,
to freed memory) is a fault at the point of the access.
-/

namespace SomeDB

open Lib

abbrev PageId := UInt32

abbrev FrameId := Nat

/-- `PAGE_SIZE` bytes. -/
abbrev Page := Block 4096

/-- Why a call does not complete. -/
inductive Fault where
  /-- `std::out_of_range` of a checked `at`. -/
  | outOfRange
  /-- `std::bad_variant_access` of `std::get`. -/
  | badVariant
  /-- A failed `assert`. -/
  | assertion
  /-- An access outside of the object it is made in. -/
  | outOfBounds
  /-- An access through a null pointer. -/
  | nullPointer
  /-- An access to freed memory. -/
  | freed
  /-- `read_page` past the end of the file calls `exit(1)`. -/
  | exit
  /-- A division by zero. -/
  | divByZero
  /-- An `int` that grows past its range. -/
  | overflow
  /-- The call never returns. -/
  | diverges
  deriving DecidableEq, Repr

/-- `memcpy(data + off, bs, ..)` into the page buffer. -/
def memcpy (data : Page) (off : Nat) (bs : List UInt8) : Except Fault Page :=
  if off + bs.length ≤ 4096 then .ok (data.blit off bs) else .error .outOfBounds

theorem memcpy_ok {data : Page} {off : Nat} {bs : List UInt8} (h : off + bs.length ≤ 4096) :
    memcpy data off bs = .ok (data.blit off bs) := if_pos h

/-- The bytes that a `memcpy` reads from the page buffer. -/
def readBytes (data : Page) (off len : Nat) : Except Fault (List UInt8) :=
  if off + len ≤ 4096 then .ok (data.slice off len) else .error .outOfBounds

/-- `RID`: the page and the slot of a record. -/
structure RID where
  pid : PageId
  slotNum : UInt32
  deriving DecidableEq, Repr

/-- What stands in a list with one element more. -/
theorem getElem?_concat_cases {α : Type} {xs : List α} {x y : α} {i : Nat} (h : (xs ++ [x])[i]? = some y) :
    (i < xs.length ∧ xs[i]? = some y) ∨ (i = xs.length ∧ y = x) := by
  rcases Nat.lt_trichotomy i xs.length with hlt | rfl | hgt
  · rw [List.getElem?_append_left hlt] at h
    exact .inl ⟨hlt, h⟩
  · rw [List.getElem?_concat_length, Option.some.injEq] at h
    exact .inr ⟨rfl, h.symm⟩
  · rw [List.getElem?_eq_none (by rw [List.length_append, List.length_singleton]; omega)] at h
    cases h

/-- What stands in a list in which one element was replaced. -/
theorem getElem?_set_cases {α : Type} {xs : List α} {x y : α} {i j : Nat} (h : (xs.set i x)[j]? = some y) :
    (j = i ∧ y = x) ∨ (j ≠ i ∧ xs[j]? = some y) := by
  by_cases hj : j = i
  · subst hj
    obtain ⟨hlt, hy⟩ := List.getElem?_eq_some_iff.mp h
    rw [List.getElem_set_self] at hy
    exact .inl ⟨rfl, hy.symm⟩
  · rw [List.getElem?_set_ne (Ne.symm hj)] at h
    exact .inr ⟨hj, h⟩

end SomeDB
