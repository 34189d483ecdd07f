import Mathlib.Algebra.Order.BigOperators.Group.List
import Mathlib.Algebra.Order.Ring.Nat
import SomeDB.Disk.PageDirectory
import SomeDB.Lib.PrefixCode

/-!
# The encoding of tuples

`add_tuple` writes the values one after the other. A value of a fixed size ends after that size, and a string
is preceded by its length, so tuples of the same types are never mistaken for one another
(`tuple_encoding_unambiguous`).
-/

namespace SomeDB

open Lib

namespace ColumnValue

/-- A `bool` is 0 or 1 and a string has no null character. -/
def WellFormed : ColumnValue → Prop
  | .boolean b => b = 0 ∨ b = 1
  | .string s => 0 ∉ s
  | _ => True

/-- The bytes that a value takes in a tuple. -/
def encodedLength : ColumnValue → Nat
  | .boolean _ => 1
  | .integer _ => 4
  | .decimal _ => 8
  | .string s => 2 + s.length

theorem bytes_length_of_lt {v : ColumnValue} (h : v.encodedLength < 65536) : v.bytes.length = v.encodedLength := by
  cases v with
  | boolean => rfl
  | integer => rfl
  | decimal d => exact Block.slice_length ..
  | string s =>
    simp only [encodedLength] at h
    simp only [bytes, encodedLength, List.length_append, encodeUint16_length, List.length_take,
      UInt16.toNat_ofNat']
    omega

/-- Two values of one type, as `add_tuple` can store them. -/
structure SameType (v w : ColumnValue) : Prop where
  type : v.type = w.type
  left : v.WellFormed
  right : w.WellFormed
  leftLength : v.encodedLength < 65536
  rightLength : w.encodedLength < 65536

theorem string_bytes {s : List UInt8} (h : s.length < 65536) :
    (ColumnValue.string s).bytes = encodeUint16 (UInt16.ofNat s.length) ++ s := by
  rw [bytes, UInt16.toNat_ofNat', Nat.mod_eq_of_lt h, List.take_length]

/-- A value of a fixed size is known by its bytes. -/
theorem eq_of_bytes {v w : ColumnValue} (h : SameType v w) (hv : v.type ≠ .string) (heq : v.bytes = w.bytes) :
    v = w := by
  cases v with
  | boolean a =>
    cases w with
    | boolean b =>
      have ha : a = 0 ∨ a = 1 := h.left
      have hb : b = 0 ∨ b = 1 := h.right
      rcases ha with rfl | rfl <;> rcases hb with rfl | rfl <;>
        first | rfl | exact absurd heq (by decide)
    | _ => cases h.type
  | integer a =>
    cases w with
    | integer b =>
      have hdec := congrArg decodeUint32 heq
      simp only [bytes, decodeUint32_encodeUint32] at hdec
      rw [← Int32.toInt32_toUInt32 a, hdec, Int32.toInt32_toUInt32]
    | _ => cases h.type
  | decimal a =>
    cases w with
    | decimal b =>
      refine congrArg _ (Block.ext fun i hi => ?_)
      have := Block.slice_eq_iff.mp (show a.slice 0 8 = b.slice 0 8 from heq) i hi
      simpa using this
    | _ => cases h.type
  | string => exact absurd rfl hv

/-- A type other than that of strings has one size. -/
theorem encodedLength_eq {v w : ColumnValue} (htype : v.type = w.type) (hv : v.type ≠ .string) :
    v.encodedLength = w.encodedLength := by
  cases v <;> cases w <;> cases htype <;> first | rfl | exact absurd rfl hv

theorem delimited : Delimited SameType bytes := by
  intro v w h r s heq
  have hlen := bytes_length_of_lt h.leftLength
  have hlen' := bytes_length_of_lt h.rightLength
  by_cases hv : v.type = .string
  · -- the length in front of a string says where it ends
    have hw : w.type = .string := h.type.symm.trans hv
    cases v with
    | string a =>
      cases w with
      | string b =>
        have ha : 2 + a.length < 65536 := h.leftLength
        have hb : 2 + b.length < 65536 := h.rightLength
        rw [string_bytes (by omega), string_bytes (by omega), List.append_assoc, List.append_assoc] at heq
        obtain ⟨hsize, hrest⟩ := List.append_inj heq (by simp)
        have hsize' := congrArg (fun bs => (decodeUint16 bs).toNat) hsize
        simp only [decodeUint16_encodeUint16, UInt16.toNat_ofNat'] at hsize'
        obtain ⟨rfl, rfl⟩ := List.append_inj hrest (by omega)
        exact ⟨rfl, rfl⟩
      | _ => cases hw
    | _ => cases hv
  · have hsame := encodedLength_eq h.type hv
    obtain ⟨hbytes, rfl⟩ := List.append_inj heq (by omega)
    exact ⟨eq_of_bytes h hv hbytes, rfl⟩

end ColumnValue

/-- The values of the arguments. -/
def AddTupleArgs.values (args : AddTupleArgs) : List ColumnValue := args.1.map (·.2)

/-- The values are well formed and take at most 65535 bytes. -/
structure Encodable (args : AddTupleArgs) : Prop where
  values : ∀ v ∈ AddTupleArgs.values args, v.WellFormed
  length : ((AddTupleArgs.values args).map (·.encodedLength)).sum ≤ 65535

namespace Encodable

variable {args : AddTupleArgs}

theorem lt_of_mem (h : Encodable args) {v : ColumnValue} (hv : v ∈ AddTupleArgs.values args) :
    v.encodedLength < 65536 := by
  have := List.single_le_sum (fun _ _ => Nat.zero_le _) _ (List.mem_map_of_mem (f := ColumnValue.encodedLength) hv)
  exact Nat.lt_succ_of_le (Nat.le_trans this h.length)

/-- The size that the first loop counts is the number of bytes that the second one writes. -/
theorem tupleBytes_length (h : Encodable args) :
    (tupleBytes args).length = ((AddTupleArgs.values args).map (·.encodedLength)).sum := by
  have hsum : ∀ vs : List ColumnValue, (∀ v ∈ vs, v.encodedLength < 65536) →
      (vs.flatMap (·.bytes)).length = (vs.map (·.encodedLength)).sum := by
    intro vs hvs
    rw [List.length_flatMap]
    congr 1
    exact List.map_congr_left fun v hv => ColumnValue.bytes_length_of_lt (hvs v hv)
  exact hsum _ fun v => h.lt_of_mem

theorem size (h : Encodable args) : (tupleSize args).toNat = (tupleBytes args).length := by
  have := h.length
  rw [tupleSize_toNat, h.tupleBytes_length, Nat.mod_eq_of_lt (by omega)]

theorem encode (h : Encodable args) :
    encodeTuple (tupleSize args).toNat (AddTupleArgs.values args) [] = .ok (tupleBytes args) := by
  have := h.length
  exact encodeTuple_tupleBytes (by rw [h.tupleBytes_length]; omega)

end Encodable

theorem forall₂_sameType {args args' : AddTupleArgs} (h : Encodable args) (h' : Encodable args')
    (htypes : (AddTupleArgs.values args).map (·.type) = (AddTupleArgs.values args').map (·.type)) :
    List.Forall₂ ColumnValue.SameType (AddTupleArgs.values args) (AddTupleArgs.values args') := by
  rw [List.forall₂_iff_get]
  have hlen : (AddTupleArgs.values args).length = (AddTupleArgs.values args').length := by
    simpa using congrArg List.length htypes
  refine ⟨hlen, fun i h₁ h₂ => ?_⟩
  have hmem := List.getElem_mem h₁
  have hmem' := List.getElem_mem h₂
  refine ⟨?_, h.values _ hmem, h'.values _ hmem', h.lt_of_mem hmem, h'.lt_of_mem hmem'⟩
  have hget := congrArg (·[i]?) htypes
  simpa [h₁, h₂] using hget

/-- **The encoding of tuples.** Two tuples of the same types have the same bytes if and only if they have the
same values, the bytes of one are never a proper prefix of those of the other, and the size that is counted for
each is the number of its bytes. -/
theorem tuple_encoding_unambiguous (types : List ColumnType) {args args' : AddTupleArgs}
    (htypes : (AddTupleArgs.values args).map (·.type) = types)
    (htypes' : (AddTupleArgs.values args').map (·.type) = types)
    (h : Encodable args) (h' : Encodable args') :
    ∃ buf buf', encodeTuple (tupleSize args).toNat (AddTupleArgs.values args) [] = .ok buf ∧
      encodeTuple (tupleSize args').toNat (AddTupleArgs.values args') [] = .ok buf' ∧
      (tupleSize args).toNat = buf.length ∧ (tupleSize args').toNat = buf'.length ∧
      (buf = buf' ↔ AddTupleArgs.values args = AddTupleArgs.values args') ∧
      (buf <+: buf' → buf = buf') ∧ (buf' <+: buf → buf' = buf) := by
  have hrel := forall₂_sameType h h' (htypes.trans htypes'.symm)
  have hrel' := forall₂_sameType h' h (htypes'.trans htypes.symm)
  refine ⟨_, _, h.encode, h'.encode, h.size, h'.size, ColumnValue.delimited.flatMap_inj hrel, fun hpre => ?_,
    fun hpre => ?_⟩
  · exact (ColumnValue.delimited.flatMap_inj hrel).mpr (ColumnValue.delimited.eq_of_prefix hrel hpre)
  · exact (ColumnValue.delimited.flatMap_inj hrel').mpr (ColumnValue.delimited.eq_of_prefix hrel' hpre)

/-- The strings `a` and `ab`. -/
theorem tuple_encoding_unambiguous_strings :
    let args : AddTupleArgs := ⟨[([116], .string [97])], by decide⟩
    let args' : AddTupleArgs := ⟨[([116], .string [97, 98])], by decide⟩
    ∃ buf buf', encodeTuple (tupleSize args).toNat (AddTupleArgs.values args) [] = .ok buf ∧
      encodeTuple (tupleSize args').toNat (AddTupleArgs.values args') [] = .ok buf' ∧
      (tupleSize args).toNat = buf.length ∧ (tupleSize args').toNat = buf'.length ∧
      (buf = buf' ↔ AddTupleArgs.values args = AddTupleArgs.values args') ∧
      (buf <+: buf' → buf = buf') ∧ (buf' <+: buf → buf' = buf) :=
  tuple_encoding_unambiguous [.string] rfl rfl
    ⟨by simp [AddTupleArgs.values, ColumnValue.WellFormed], by decide⟩
    ⟨by simp [AddTupleArgs.values, ColumnValue.WellFormed], by decide⟩

end SomeDB
