import SomeDB.Sql.AccessMethod
import SomeDB.Sql.Primitive

/-!
# Rows (`schema.hpp`, `schema.cpp`)

`add_tuple` stores a value where the one before it ends. `Row::getValue` adds up a size for each column before
the one it looks for; the size is that of the column it looks for. The column `i` is read at `i` times its size
(`getValue_eq`), and a row can be read if all its columns have one type.
-/

namespace SomeDB

open Lib

/-- The loop of `Row::getValue` over the columns of the schema that are left. -/
def getValueLoop (data : List UInt8) (col : SchemaColumn) :
    List SchemaColumn → UInt32 → Except SqlError PrimitiveValue
  | [], _ =>
    .error (.runtimeError (ascii "Specified column '" ++ col.name ++ ascii "' does not exist in provided schema"))
  | schCol :: cols, currOffset =>
    match col.dataType with
    | none => .error (.fault .nullPointer)
    | some dataType =>
      if col.name = schCol.name then (dataType.deserialize (data.drop currOffset.toNat)).mapError .fault
      else getValueLoop data col cols (currOffset + dataType.getSize)

/-- `Row::getValue`. -/
def getValue (data : List UInt8) (col : SchemaColumn) (schema : Table) : Except SqlError PrimitiveValue :=
  getValueLoop data col schema.columns 0

/-- The column in a schema. -/
def Column.schema (c : Column) : SchemaColumn := ⟨c.name, some c.type⟩

/-- The arguments that store the values under the names of the columns. -/
def tupleOf (columns : Columns) (vs : List ColumnValue) : AddTupleArgs :=
  ⟨(columns.1.map (·.name)).zip vs, by
    have := columns.2
    simp only [List.length_zip, List.length_map]
    omega⟩

/-- The values have the types of the columns. -/
def Conforms (columns : Columns) (vs : List ColumnValue) : Prop :=
  vs.map (·.type) = columns.1.map (·.type)

/-- The column `i` is read back from a tuple that conforms to the columns, whatever lies behind it. -/
def ReadsColumn (columns : Columns) (i : Nat) : Prop :=
  ∀ (table : CString) (vs : List ColumnValue) (rest : List UInt8), Conforms columns vs →
    ∃ tupleBuf, encodeTuple (tupleSize (tupleOf columns vs)).toNat ((tupleOf columns vs).1.map (·.2)) [] =
        .ok tupleBuf ∧
      ∀ c v, columns.1[i]? = some c → vs[i]? = some v →
        getValue (tupleBuf ++ rest) c.schema ⟨table, columns.1.map (·.schema)⟩ = .ok v.primitive

/-- The bytes that the columns before `i` take. -/
def offsetOf (columns : Columns) (i : Nat) : Nat := ((columns.1.take i).map fun c => c.type.getSize.toNat).sum

/-! ## Where a column is read -/

theorem getValueLoop_append {data : List UInt8} {c : Column} {pre post : List SchemaColumn}
    (h : ∀ p ∈ pre, p.name ≠ c.name) (off : UInt32)
    (hlt : off.toNat + pre.length * c.type.getSize.toNat < 4294967296) :
    getValueLoop data c.schema (pre ++ c.schema :: post) off =
      (c.type.deserialize (data.drop (off.toNat + pre.length * c.type.getSize.toNat))).mapError .fault := by
  induction pre generalizing off with
  | nil => simp [getValueLoop, Column.schema]
  | cons p pre ih =>
    rw [List.length_cons, Nat.succ_mul] at hlt ⊢
    have hoff : (off + c.type.getSize).toNat = off.toNat + c.type.getSize.toNat := by
      rw [UInt32.toNat_add, Nat.mod_eq_of_lt]
      omega
    have hname : ¬ c.schema.name = p.name := fun he => h p List.mem_cons_self he.symm
    have hstep : getValueLoop data c.schema (p :: pre ++ c.schema :: post) off =
        getValueLoop data c.schema (pre ++ c.schema :: post) (off + c.type.getSize) := if_neg hname
    have ih := ih (fun q hq => h q (List.mem_cons_of_mem _ hq)) (off + c.type.getSize) (by omega)
    rw [hoff] at ih
    rw [hstep, show off.toNat + (pre.length * c.type.getSize.toNat + c.type.getSize.toNat) =
      off.toNat + c.type.getSize.toNat + pre.length * c.type.getSize.toNat by omega]
    exact ih

theorem ColumnType.getSize_le (t : ColumnType) : t.getSize.toNat ≤ 1024 := by
  cases t <;> decide

theorem ColumnType.getSize_le_eight {t : ColumnType} (h : t ≠ .string) : t.getSize.toNat ≤ 8 := by
  cases t with
  | string => exact absurd rfl h
  | _ => decide

/-- The column `i` is read at `i` times its size. -/
theorem getValue_eq {columns : Columns} {i : Nat} {c : Column} (data : List UInt8) (table : CString)
    (hnames : (columns.1.map (·.name)).Nodup) (hi : columns.1[i]? = some c) :
    getValue data c.schema ⟨table, columns.1.map (·.schema)⟩ =
      (c.type.deserialize (data.drop (i * c.type.getSize.toNat))).mapError .fault := by
  obtain ⟨hlt, rfl⟩ := List.getElem?_eq_some_iff.mp hi
  have hcount := columns.2
  have hsize := columns.1[i].type.getSize_le
  have hsplit : columns.1.map (·.schema) =
      (columns.1.take i).map (·.schema) ++ columns.1[i].schema :: (columns.1.drop (i + 1)).map (·.schema) := by
    rw [← List.map_cons, ← List.map_append, ← List.drop_eq_getElem_cons hlt, List.take_append_drop]
  have hlen : ((columns.1.take i).map (·.schema)).length = i := by
    simp
    omega
  have hmul : i * columns.1[i].type.getSize.toNat ≤ 256 * 1024 := Nat.mul_le_mul (by omega) hsize
  have hne : ∀ p ∈ (columns.1.take i).map (·.schema), p.name ≠ columns.1[i].name := by
    intro p hp
    obtain ⟨c, hc, rfl⟩ := List.mem_map.mp hp
    obtain ⟨j, hj, rfl⟩ := List.mem_take_iff_getElem.mp hc
    intro heq
    have hget : (columns.1.map (·.name))[j]? = (columns.1.map (·.name))[i]? := by
      rw [List.getElem?_map, List.getElem?_map, List.getElem?_eq_getElem hlt, List.getElem?_eq_getElem (by omega)]
      exact congrArg some heq
    have hij := (List.getElem?_inj (by simp; omega) hnames).mp hget
    omega
  rw [getValue, hsplit, getValueLoop_append hne 0 (by rw [hlen]; simpa using by omega), hlen]
  simp

/-! ## Where a column is stored -/

section Stored

variable {columns : Columns} {vs : List ColumnValue} {i : Nat} {c : Column}

theorem bytes_length_sum (h : ∀ v ∈ vs, v.type ≠ .string) :
    (vs.flatMap (·.bytes)).length = (vs.map fun v => v.type.getSize.toNat).sum := by
  induction vs with
  | nil => rfl
  | cons v vs ih =>
    rw [List.flatMap_cons, List.length_append, ColumnValue.bytes_length (h v List.mem_cons_self),
      ih fun w hw => h w (List.mem_cons_of_mem _ hw)]
    rfl

theorem bytes_length_le (h : ∀ v ∈ vs, v.type ≠ .string) : (vs.flatMap (·.bytes)).length ≤ 8 * vs.length := by
  induction vs with
  | nil => rfl
  | cons v vs ih =>
    have hv : v.bytes.length ≤ 8 := by
      rw [ColumnValue.bytes_length (h v List.mem_cons_self)]
      exact ColumnType.getSize_le_eight (h v List.mem_cons_self)
    have ih := ih fun w hw => h w (List.mem_cons_of_mem _ hw)
    rw [List.flatMap_cons, List.length_append, List.length_cons]
    omega

theorem Conforms.fixed (h : Conforms columns vs) (hfixed : ∀ c ∈ columns.1, c.type ≠ .string) :
    ∀ v ∈ vs, v.type ≠ .string := by
  intro v hv
  have hmem : v.type ∈ columns.1.map (·.type) := h ▸ List.mem_map_of_mem hv
  obtain ⟨c, hc, heq⟩ := List.mem_map.mp hmem
  exact heq ▸ hfixed c hc

/-- The bytes before the value `i` are those of the columns before `i`. -/
theorem Conforms.offset (h : Conforms columns vs) (hfixed : ∀ c ∈ columns.1, c.type ≠ .string) (i : Nat) :
    ((vs.take i).flatMap (·.bytes)).length = offsetOf columns i := by
  rw [bytes_length_sum fun v hv => h.fixed hfixed v (List.mem_of_mem_take hv), offsetOf]
  have htake : (vs.take i).map (·.type) = (columns.1.take i).map (·.type) := by
    rw [List.map_take, h, List.map_take]
  have hsize := congrArg (List.map fun t : ColumnType => t.getSize.toNat) htake
  rw [List.map_map, List.map_map] at hsize
  exact congrArg List.sum hsize

/-- A tuple of values that are not strings is encoded. -/
theorem Conforms.encode (h : Conforms columns vs) (hfixed : ∀ c ∈ columns.1, c.type ≠ .string) :
    encodeTuple (tupleSize (tupleOf columns vs)).toNat ((tupleOf columns vs).1.map (·.2)) [] =
      .ok (vs.flatMap (·.bytes)) := by
  have hlen : vs.length = columns.1.length := by simpa using congrArg List.length h
  have hvs : (tupleOf columns vs).1.map (·.2) = vs := List.map_snd_zip (by simp [hlen])
  have hbytes : tupleBytes (tupleOf columns vs) = vs.flatMap (·.bytes) := by rw [tupleBytes, hvs]
  have hcount := columns.2
  have hle := bytes_length_le (h.fixed hfixed)
  rw [encodeTuple_tupleBytes, hbytes]
  rw [hbytes]
  omega

end Stored

/-! ## Values of zero bytes -/

/-- The value of zero bytes. -/
def ColumnType.zero : ColumnType → ColumnValue
  | .boolean => .boolean 0
  | .integer => .integer 0
  | .decimal => .decimal Block.zero
  | .string => .string []

/-- The value of zero bytes but for a 1 at its beginning or at its end. -/
def ColumnType.mark (atEnd : Bool) : ColumnType → ColumnValue
  | .boolean => .boolean 1
  | .integer => .integer (if atEnd then 1 else 16777216)
  | .decimal => .decimal (Block.zero.blit (if atEnd then 7 else 0) [1])
  | .string => .string [1]

namespace ColumnType

variable {t : ColumnType}

@[simp] theorem zero_type (t : ColumnType) : t.zero.type = t := by cases t <;> rfl

@[simp] theorem mark_type (atEnd : Bool) (t : ColumnType) : (t.mark atEnd).type = t := by cases t <;> rfl

theorem zero_bytes (h : t ≠ .string) : t.zero.bytes = List.replicate t.getSize.toNat 0 := by
  cases t with
  | string => exact absurd rfl h
  | _ => decide

theorem mark_bytes (h : t ≠ .string) (atEnd : Bool) :
    (t.mark atEnd).bytes =
      if atEnd then List.replicate (t.getSize.toNat - 1) 0 ++ [1]
      else 1 :: List.replicate (t.getSize.toNat - 1) 0 := by
  cases t with
  | string => exact absurd rfl h
  | _ => cases atEnd <;> decide

theorem mark_ne_zero (h : t ≠ .string) (atEnd : Bool) : t.zero.primitive ≠ (t.mark atEnd).primitive := by
  intro heq
  have hbytes : (t.mark atEnd).bytes ≠ t.zero.bytes := by
    cases t with
    | string => exact absurd rfl h
    | _ => cases atEnd <;> decide
  -- a value that is not a string is the one that its bytes say, and these are read back
  cases t with
  | string => exact absurd rfl h
  | boolean => cases heq
  | integer =>
    injection heq with _ hv
    injection hv with hv
    exact hbytes (by rw [mark, zero, ← hv])
  | decimal =>
    injection heq with _ hv
    injection hv with hv
    exact hbytes (by rw [mark, zero, ← hv])

end ColumnType

theorem zeros_bytes {cs : List Column} (h : ∀ c ∈ cs, c.type ≠ .string) :
    (cs.map (·.type.zero)).flatMap (·.bytes) =
      List.replicate (cs.map fun c => c.type.getSize.toNat).sum 0 := by
  induction cs with
  | nil => rfl
  | cons c cs ih =>
    rw [List.map_cons, List.flatMap_cons, ih fun d hd => h d (List.mem_cons_of_mem _ hd),
      ColumnType.zero_bytes (h c List.mem_cons_self), List.map_cons, List.sum_cons, List.replicate_append_replicate]

/-- A read that leaves out the only byte that is not zero. -/
theorem drop_zeros {p q r s : Nat} (h : p < r ∧ r + s ≤ p + 1 + q ∨ r + s ≤ p) :
    ∃ rest, (List.replicate p 0 ++ 1 :: List.replicate q 0 : List UInt8).drop r = List.replicate s 0 ++ rest := by
  rcases h with ⟨hlt, hle⟩ | hle
  · refine ⟨List.replicate (p + 1 + q - r - s) 0, ?_⟩
    rw [List.drop_append, List.drop_eq_nil_of_le (by simp; omega), List.length_replicate,
      show r - p = (r - p - 1) + 1 by omega, List.drop_succ_cons, List.drop_replicate, List.nil_append,
      List.replicate_append_replicate]
    congr 1
    omega
  · refine ⟨List.replicate (p - r - s) 0 ++ 1 :: List.replicate q 0, ?_⟩
    rw [List.drop_append_of_le_length (by simp; omega), List.drop_replicate, ← List.append_assoc,
      List.replicate_append_replicate]
    congr 2
    omega

/-! ## Reading a row -/

section Rows

variable {columns : Columns} {i : Nat} {c : Column}

/-- A column that is stored where it is read. -/
theorem readsColumn_of_offset (hnames : (columns.1.map (·.name)).Nodup)
    (hfixed : ∀ c ∈ columns.1, c.type ≠ .string) (hi : columns.1[i]? = some c)
    (hoff : offsetOf columns i = i * c.type.getSize.toNat) : ReadsColumn columns i := by
  intro table vs rest hvs
  refine ⟨_, hvs.encode hfixed, ?_⟩
  intro c' v hc' hv
  obtain rfl : c = c' := Option.some.inj (hi.symm.trans hc')
  obtain ⟨hlt, rfl⟩ := List.getElem?_eq_some_iff.mp hv
  have htype : vs[i].type = c.type := by
    have hget := congrArg (·[i]?) hvs
    simpa [hv, hi] using hget
  have hsplit : vs.flatMap (·.bytes) ++ rest =
      (vs.take i).flatMap (·.bytes) ++ (vs[i].bytes ++ ((vs.drop (i + 1)).flatMap (·.bytes) ++ rest)) := by
    conv_lhs => rw [← List.take_append_drop i vs, List.drop_eq_getElem_cons hlt, List.flatMap_append,
      List.flatMap_cons]
    simp only [List.append_assoc]
  rw [getValue_eq _ table hnames hi, ← hoff, hsplit, List.drop_left' (hvs.offset hfixed i), ← htype,
    ColumnValue.deserialize_bytes (htype ▸ hfixed c (List.mem_of_getElem? hi))]
  rfl

/-- Zero values but for a mark in the column `i`. -/
def markedRow (columns : Columns) (i : Nat) (atEnd : Bool) (c : Column) : List ColumnValue :=
  (columns.1.take i).map (·.type.zero) ++ c.type.mark atEnd :: (columns.1.drop (i + 1)).map (·.type.zero)

theorem markedRow_conforms (hi : columns.1[i]? = some c) (atEnd : Bool) :
    Conforms columns (markedRow columns i atEnd c) := by
  obtain ⟨hlt, rfl⟩ := List.getElem?_eq_some_iff.mp hi
  have hcols : columns.1.map (·.type) = (columns.1.take i).map (·.type) ++
      columns.1[i].type :: (columns.1.drop (i + 1)).map (·.type) := by
    rw [← List.map_cons, ← List.map_append, ← List.drop_eq_getElem_cons hlt, List.take_append_drop]
  have hzero : (fun v : ColumnValue => v.type) ∘ (fun c : Column => c.type.zero) = fun c => c.type :=
    funext fun c => ColumnType.zero_type c.type
  rw [Conforms, hcols, markedRow, List.map_append, List.map_cons, List.map_map, List.map_map, hzero,
    ColumnType.mark_type]

/-- The bytes of the row: the mark is the only byte that is not zero. -/
theorem markedRow_bytes (hfixed : ∀ c ∈ columns.1, c.type ≠ .string) (hi : columns.1[i]? = some c)
    (atEnd : Bool) (k : Nat) :
    ∃ q, c.type.getSize.toNat + k ≤ q + 1 + (if atEnd then c.type.getSize.toNat - 1 else 0) ∧
      (markedRow columns i atEnd c).flatMap (·.bytes) ++ List.replicate k 0 =
        List.replicate (offsetOf columns i + if atEnd then c.type.getSize.toNat - 1 else 0) 0 ++
          1 :: List.replicate q 0 := by
  have hc := hfixed c (List.mem_of_getElem? hi)
  have hpos : 0 < c.type.getSize.toNat := by cases c.type <;> decide
  have hpre := zeros_bytes fun d hd => hfixed d (List.mem_of_mem_take (i := i) hd)
  have hpost := zeros_bytes fun d hd => hfixed d (List.mem_of_mem_drop (i := i + 1) hd)
  rw [markedRow, List.flatMap_append, List.flatMap_cons, hpre, hpost, ColumnType.mark_bytes hc, offsetOf]
  generalize hrest : ((columns.1.drop (i + 1)).map fun c => c.type.getSize.toNat).sum = post
  cases atEnd with
  | true =>
    refine ⟨post + k, by simp only [if_true]; omega, ?_⟩
    simp only [if_true, List.append_assoc, List.replicate_append_replicate, List.cons_append, List.nil_append]
    rw [← List.append_assoc, List.replicate_append_replicate]
  | false =>
    refine ⟨c.type.getSize.toNat - 1 + (post + k), by simp only [Bool.false_eq_true, if_false]; omega, ?_⟩
    simp only [Bool.false_eq_true, if_false, List.append_assoc, List.cons_append,
      List.replicate_append_replicate, Nat.add_zero, Nat.add_assoc]

/-- A column that is stored elsewhere than where it is read is not read back if its value is the only one that is
not zero. -/
theorem offset_of_readsColumn (hnames : (columns.1.map (·.name)).Nodup)
    (hfixed : ∀ c ∈ columns.1, c.type ≠ .string) (hi : columns.1[i]? = some c)
    (hreads : ReadsColumn columns i) : offsetOf columns i = i * c.type.getSize.toNat := by
  by_contra hne
  have hc := hfixed c (List.mem_of_getElem? hi)
  have hpos : 0 < c.type.getSize.toNat := by cases c.type <;> decide
  -- the mark is at the end of the value if the read begins before it
  let atEnd := decide (i * c.type.getSize.toNat < offsetOf columns i)
  have hvs := markedRow_conforms hi atEnd
  obtain ⟨tupleBuf, hbuf, hget⟩ := hreads [] _ (List.replicate (i * c.type.getSize.toNat) 0) hvs
  cases hbuf.symm.trans (hvs.encode hfixed)
  obtain ⟨q, hq, hbytes⟩ := markedRow_bytes hfixed hi atEnd (i * c.type.getSize.toNat)
  have hlt : i ≤ columns.1.length := by
    have := (List.getElem?_eq_some_iff.mp hi).1
    omega
  have hv : (markedRow columns i atEnd c)[i]? = some (c.type.mark atEnd) := by
    have hlen : ((columns.1.take i).map (·.type.zero)).length = i := by
      rw [List.length_map, List.length_take, Nat.min_eq_left hlt]
    rw [markedRow, List.getElem?_append_right (Nat.le_of_eq hlen), hlen, Nat.sub_self]
    rfl
  have hread := hget c _ hi hv
  obtain ⟨rest, hdrop⟩ := drop_zeros (q := q) (r := i * c.type.getSize.toNat) (s := c.type.getSize.toNat)
    (p := offsetOf columns i + if atEnd then c.type.getSize.toNat - 1 else 0) (by
      by_cases hbefore : i * c.type.getSize.toNat < offsetOf columns i
      · have hat : atEnd = true := decide_eq_true hbefore
        rw [hat]
        simp only [if_true]
        omega
      · have hat : atEnd = false := decide_eq_false hbefore
        rw [hat] at hq ⊢
        simp only [Bool.false_eq_true, if_false] at hq ⊢
        omega)
  rw [getValue_eq _ _ hnames hi, hbytes, hdrop, ← ColumnType.zero_bytes hc] at hread
  have hzero := ColumnValue.deserialize_bytes (v := c.type.zero) (by simpa using hc) rest
  rw [ColumnType.zero_type] at hzero
  rw [hzero] at hread
  exact ColumnType.mark_ne_zero hc atEnd (Except.ok.inj hread)

theorem offsetOf_succ (hi : columns.1[i]? = some c) :
    offsetOf columns (i + 1) = offsetOf columns i + c.type.getSize.toNat := by
  rw [offsetOf, List.take_add_one, hi, offsetOf]
  simp

theorem ColumnType.getSize_inj {t u : ColumnType} (h : t.getSize.toNat = u.getSize.toNat) : t = u := by
  cases t <;> cases u <;> first | rfl | exact absurd h (by decide)

/-- If each column begins at its index times its size, they all have the size of the first one. -/
theorem type_eq_first (hoff : ∀ i c, columns.1[i]? = some c → offsetOf columns i = i * c.type.getSize.toNat)
    {c₀ : Column} (h₀ : columns.1[0]? = some c₀) (i : Nat) (c : Column) (hi : columns.1[i]? = some c) :
    c.type = c₀.type := by
  induction i generalizing c with
  | zero =>
    cases h₀.symm.trans hi
    rfl
  | succ i ih =>
    have hlt : i < columns.1.length := by
      have := (List.getElem?_eq_some_iff.mp hi).1
      omega
    have hprev : columns.1[i]? = some columns.1[i] := List.getElem?_eq_getElem hlt
    rw [← ih _ hprev]
    have hsucc := offsetOf_succ hprev
    rw [hoff _ _ hi, hoff _ _ hprev, ← Nat.succ_mul] at hsucc
    exact ColumnType.getSize_inj (Nat.eq_of_mul_eq_mul_left (Nat.succ_pos i) hsucc)

theorem offsetOf_of_types (h : ∀ c ∈ columns.1, ∀ c' ∈ columns.1, c.type = c'.type)
    (hi : columns.1[i]? = some c) : offsetOf columns i = i * c.type.getSize.toNat := by
  have hlt := (List.getElem?_eq_some_iff.mp hi).1
  have hconst : (columns.1.take i).map (fun c => c.type.getSize.toNat) =
      List.replicate i c.type.getSize.toNat := by
    rw [List.eq_replicate_iff]
    refine ⟨by simp; omega, ?_⟩
    intro n hn
    obtain ⟨d, hd, rfl⟩ := List.mem_map.mp hn
    rw [h d (List.mem_of_mem_take hd) c (List.mem_of_getElem? hi)]
  rw [offsetOf, hconst, List.sum_replicate_nat]

/-- Every column is read back from every row if and only if all columns have one type. -/
theorem readsColumns_iff (hnames : (columns.1.map (·.name)).Nodup)
    (hfixed : ∀ c ∈ columns.1, c.type ≠ .string) :
    (∀ i, ReadsColumn columns i) ↔ ∀ c ∈ columns.1, ∀ c' ∈ columns.1, c.type = c'.type := by
  constructor
  · intro hreads
    have hoff : ∀ i c, columns.1[i]? = some c → offsetOf columns i = i * c.type.getSize.toNat :=
      fun i c hi => offset_of_readsColumn hnames hfixed hi (hreads i)
    intro c hc c' hc'
    obtain ⟨i, hi⟩ := List.getElem?_of_mem hc
    obtain ⟨j, hj⟩ := List.getElem?_of_mem hc'
    have hpos := List.length_pos_of_mem hc
    have h₀ : columns.1[0]? = some columns.1[0] := List.getElem?_eq_getElem hpos
    rw [type_eq_first hoff h₀ i c hi, type_eq_first hoff h₀ j c' hj]
  · intro htypes i
    rcases Option.eq_none_or_eq_some columns.1[i]? with hi | ⟨c, hi⟩
    · intro table vs rest hvs
      refine ⟨_, hvs.encode hfixed, fun c v hc => ?_⟩
      cases hi.symm.trans hc
    · exact readsColumn_of_offset hnames hfixed hi (offsetOf_of_types htypes hi)

end Rows

/-- Two integers. -/
def twoIntegers : Columns := ⟨[⟨[97], .integer, Column.length_a⟩, ⟨[98], .integer, by decide⟩], by decide⟩

theorem readsColumns_twoIntegers : ReadsColumn twoIntegers 1 :=
  (readsColumns_iff (by decide) (by decide)).mpr (by decide) 1

/-- A boolean and an integer: the integer is stored at 1 and read at 4. -/
def booleanInteger : Columns := ⟨[⟨[97], .boolean, Column.length_a⟩, ⟨[98], .integer, by decide⟩], by decide⟩

theorem readsColumns_fails :
    (booleanInteger.1.map (·.name)).Nodup ∧ (∀ c ∈ booleanInteger.1, c.type ≠ .string) ∧
      ¬ ∀ i, ReadsColumn booleanInteger i := by
  refine ⟨by decide, by decide, fun h => ?_⟩
  have hoff := offset_of_readsColumn (by decide) (by decide) (c := ⟨[98], .integer, by decide⟩) rfl (h 1)
  exact absurd hoff (by decide)

end SomeDB
