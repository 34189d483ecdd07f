import SomeDB.Disk.TupleRuns

/-!
# The schema page

`create_table` puts the record of a column at its index times the size of the record before, and `add_tuple`
looks for it there, by the length that it reads in the record before. So a record is found where it was written
unless a later one was written over it, which happens where the lengths of the names decrease.

* `validate_true`, `validate_false`: what the loop of `add_tuple` decides, in terms of the records that it finds.
* `schemaPage_isOk`: when the records can be written.
* `record_eq`: names of ascending length are found as they were written.
-/

namespace SomeDB

open Lib

/-! ## The records that are found -/

/-- Where the record of the column `i` is looked for. -/
def recordOffset (schema : Page) : Nat → Nat
  | 0 => 0
  | i + 1 => (i + 1) * schemaColumnSize (schema.byte (1 + recordOffset schema i)).toNat

/-- The length, the name and the type that are found there. -/
def recordNameLen (schema : Page) (i : Nat) : Nat := (schema.byte (1 + recordOffset schema i)).toNat

def recordName (schema : Page) (i : Nat) : List UInt8 :=
  schema.slice (1 + recordOffset schema i + 1) (recordNameLen schema i)

def recordType (schema : Page) (i : Nat) : UInt8 :=
  schema.byte (1 + (recordOffset schema i + recordNameLen schema i + 1))

/-- The record lies in the page. -/
def RecordInPage (schema : Page) (i : Nat) : Prop :=
  1 + (recordOffset schema i + recordNameLen schema i + 1) < 4096

instance (schema : Page) (i : Nat) : Decidable (RecordInPage schema i) := inferInstanceAs (Decidable (_ < _))

/-- The column of the arguments agrees with the record. -/
def RecordAgrees (schema : Page) (args : AddTupleArgs) (i : Nat) : Prop :=
  ∃ name value, args.1[i]? = some (name, value) ∧ strncmpEq (recordName schema i) name = true ∧
    value.type.code = recordType schema i

/-- The record lies in the page and the column agrees with it. -/
def RecordPasses (schema : Page) (args : AddTupleArgs) (i : Nat) : Prop :=
  RecordInPage schema i ∧ RecordAgrees schema args i

/-- The record lies in the page and the column differs from it, and the difference can be printed: it is one of the
type, or the name that is found has a null character. -/
def RecordDiffers (schema : Page) (args : AddTupleArgs) (i : Nat) : Prop :=
  RecordInPage schema i ∧ ∃ name value, args.1[i]? = some (name, value) ∧
    if strncmpEq (recordName schema i) name = true then value.type.code ≠ recordType schema i
    else 0 ∈ recordName schema i

theorem RecordDiffers.not_agrees {schema : Page} {args : AddTupleArgs} {i : Nat} (h : RecordDiffers schema args i) :
    ¬ RecordAgrees schema args i := by
  obtain ⟨-, name, value, hcol, hdiff⟩ := h
  rintro ⟨name', value', hcol', hname, htype⟩
  cases hcol.symm.trans hcol'
  rw [if_pos hname] at hdiff
  exact hdiff htype

/-- The offset that the loop has when it comes to the column `i`. -/
def prevOffset (schema : Page) : Nat → Nat
  | 0 => 0
  | i + 1 => recordOffset schema i

section Check

variable {schema : Page} {args : AddTupleArgs} {n k i : Nat}

theorem recordInPage_zero (schema : Page) : RecordInPage schema 0 := by
  have := (schema.byte (1 + recordOffset schema 0)).toNat_lt
  simp only [RecordInPage, recordNameLen, recordOffset] at this ⊢
  omega

theorem prevOffset_lt (h : i = 0 ∨ RecordInPage schema (i - 1)) : 1 + prevOffset schema i < 4096 := by
  cases i with
  | zero => simp [prevOffset]
  | succ i =>
    have hin : RecordInPage schema i := by simpa using h
    rw [RecordInPage] at hin
    rw [prevOffset]
    omega

theorem schemaByte_ok {off : Nat} (h : 1 + off < 4096) : schemaByte schema off = .ok (schema.byte (1 + off)) :=
  if_pos h

/-- One turn of the loop. -/
theorem validateLoop_succ (h : i = 0 ∨ RecordInPage schema (i - 1)) :
    validateLoop schema n args (k + 1) i (prevOffset schema i) =
      if RecordInPage schema i then
        if args.1.length ≠ n then .ok false
        else
          match args.1[i]? with
          | none => .error .outOfBounds
          | some (name, value) =>
            if !strncmpEq (recordName schema i) name then do
              printColName (recordName schema i)
              .ok false
            else if value.type.code ≠ recordType schema i then .ok false
            else validateLoop schema n args k (i + 1) (prevOffset schema (i + 1))
      else .error .outOfBounds := by
  have hoff : i * (1 + (schema.byte (1 + prevOffset schema i)).toNat + 1) = recordOffset schema i := by
    cases i with
    | zero => simp [recordOffset]
    | succ i => rfl
  simp only [validateLoop, schemaByte_ok (prevOffset_lt h), bind, Except.bind, hoff]
  by_cases hin : RecordInPage schema i
  · have hlt : 1 + recordOffset schema i < 4096 := by
      rw [RecordInPage] at hin
      omega
    rw [if_pos hin, schemaByte_ok hlt]
    simp only
    rw [schemaByte_ok (show 1 + (recordOffset schema i + (schema.byte (1 + recordOffset schema i)).toNat + 1) < 4096
      from hin)]
    rfl
  · rw [if_neg hin]
    by_cases hlt : 1 + recordOffset schema i < 4096
    · rw [schemaByte_ok hlt]
      simp only
      have herr : schemaByte schema (recordOffset schema i + (schema.byte (1 + recordOffset schema i)).toNat + 1) =
          .error .outOfBounds := if_neg hin
      rw [herr]
    · have herr : schemaByte schema (recordOffset schema i) = .error .outOfBounds := if_neg hlt
      rw [herr]

/-- A turn for arguments of the right number, with a record in the page. -/
theorem validateLoop_turn (h : i = 0 ∨ RecordInPage schema (i - 1)) (hlen : args.1.length = n) (hi : i < n)
    (hin : RecordInPage schema i) :
    (RecordAgrees schema args i → validateLoop schema n args (k + 1) i (prevOffset schema i) =
      validateLoop schema n args k (i + 1) (prevOffset schema (i + 1))) ∧
    (RecordDiffers schema args i → validateLoop schema n args (k + 1) i (prevOffset schema i) = .ok false) ∧
    (¬ RecordAgrees schema args i → ¬ RecordDiffers schema args i →
      validateLoop schema n args (k + 1) i (prevOffset schema i) = .error .outOfBounds) := by
  rw [validateLoop_succ h, if_pos hin, if_neg (not_not.mpr hlen)]
  obtain ⟨⟨name, value⟩, hcol⟩ : ∃ col, args.1[i]? = some col := ⟨_, List.getElem?_eq_getElem (by omega)⟩
  simp only [hcol]
  refine ⟨?_, ?_, fun hno hdiff => ?_⟩
  · rintro ⟨name', value', hcol', hname, htype⟩
    cases hcol.symm.trans hcol'
    simp [hname, htype]
  · rintro ⟨-, name', value', hcol', hdiff⟩
    cases hcol.symm.trans hcol'
    split at hdiff
    · next hname => simp [hname, hdiff]
    · next hname => simp [hname, printColName, hdiff, bind, Except.bind]
  · -- the name is printed, and it has no null character
    have hname : ¬ strncmpEq (recordName schema i) name = true := by
      intro hname
      refine hdiff ⟨hin, name, value, hcol, ?_⟩
      rw [if_pos hname]
      exact fun htype => hno ⟨name, value, hcol, hname, htype⟩
    have hnul : 0 ∉ recordName schema i := by
      intro hnul
      refine hdiff ⟨hin, name, value, hcol, ?_⟩
      rw [if_neg hname]
      exact hnul
    simp [hname, printColName, hnul, bind, Except.bind]

/-- The loop accepts arguments of the right number if all the records that are left pass. -/
theorem validateLoop_true (h : i = 0 ∨ RecordInPage schema (i - 1)) (hlen : args.1.length = n) (hk : i + k = n) :
    validateLoop schema n args k i (prevOffset schema i) = .ok true ↔
      ∀ j, i ≤ j → j < n → RecordPasses schema args j := by
  induction k generalizing i with
  | zero => exact iff_of_true rfl fun j hij hj => by omega
  | succ k ih =>
    have hfirst : ∀ {P : Nat → Prop}, (∀ j, i ≤ j → j < n → P j) ↔ P i ∧ ∀ j, i + 1 ≤ j → j < n → P j := by
      intro P
      refine ⟨fun hall => ⟨hall i (Nat.le_refl i) (by omega), fun j hj => hall j (by omega)⟩, fun hall j hij hj => ?_⟩
      rcases Nat.lt_or_eq_of_le hij with hlt | rfl
      · exact hall.2 j hlt hj
      · exact hall.1
    rw [hfirst]
    by_cases hin : RecordInPage schema i
    · obtain ⟨hyes, hno, herr⟩ := validateLoop_turn (k := k) h hlen (by omega) hin
      by_cases hagree : RecordAgrees schema args i
      · rw [hyes hagree, ih (.inr (by simpa using hin)) (by omega)]
        exact (and_iff_right ⟨hin, hagree⟩).symm
      · refine iff_of_false ?_ fun hall => hagree hall.1.2
        by_cases hdiff : RecordDiffers schema args i
        · rw [hno hdiff]
          simp
        · rw [herr hagree hdiff]
          simp
    · rw [validateLoop_succ h, if_neg hin]
      exact iff_of_false (by simp) fun hall => hin hall.1.1

/-- It rejects them at the first record that does not pass, if the difference can be printed. -/
theorem validateLoop_false (h : i = 0 ∨ RecordInPage schema (i - 1)) (hlen : args.1.length = n) (hk : i + k = n) :
    validateLoop schema n args k i (prevOffset schema i) = .ok false ↔
      ∃ j, i ≤ j ∧ j < n ∧ RecordDiffers schema args j ∧ ∀ l, i ≤ l → l < j → RecordPasses schema args l := by
  induction k generalizing i with
  | zero =>
    refine iff_of_false (by simp [validateLoop]) ?_
    rintro ⟨j, hij, hj, -⟩
    omega
  | succ k ih =>
    by_cases hin : RecordInPage schema i
    · obtain ⟨hyes, hno, herr⟩ := validateLoop_turn (k := k) h hlen (by omega) hin
      by_cases hagree : RecordAgrees schema args i
      · rw [hyes hagree, ih (.inr (by simpa using hin)) (by omega)]
        constructor
        · rintro ⟨j, hij, hj, hdiff, hpass⟩
          refine ⟨j, by omega, hj, hdiff, fun l hil hlj => ?_⟩
          rcases Nat.lt_or_eq_of_le hil with hlt | rfl
          · exact hpass l hlt hlj
          · exact ⟨hin, hagree⟩
        · rintro ⟨j, hij, hj, hdiff, hpass⟩
          have hne : i ≠ j := by
            rintro rfl
            exact hdiff.not_agrees hagree
          exact ⟨j, by omega, hj, hdiff, fun l hil => hpass l (by omega)⟩
      · by_cases hdiff : RecordDiffers schema args i
        · rw [hno hdiff]
          exact iff_of_true rfl ⟨i, Nat.le_refl i, by omega, hdiff, fun l hil hli => by omega⟩
        · rw [herr hagree hdiff]
          refine iff_of_false (by simp) ?_
          rintro ⟨j, hij, hj, hdiff', hpass⟩
          rcases Nat.lt_or_eq_of_le hij with hlt | rfl
          · exact hagree (hpass i (Nat.le_refl i) hlt).2
          · exact hdiff hdiff'
    · rw [validateLoop_succ h, if_neg hin]
      refine iff_of_false (by simp) ?_
      rintro ⟨j, hij, hj, hdiff, hpass⟩
      rcases Nat.lt_or_eq_of_le hij with hlt | rfl
      · exact hin (hpass i (Nat.le_refl i) hlt).1
      · exact hin hdiff.1

end Check

/-! ## The decision -/

/-- All records pass; an empty schema lets everything pass. -/
def RecordsPass (schema : Page) (args : AddTupleArgs) : Prop :=
  (schema.byte 0).toNat = 0 ∨ args.1.length = (schema.byte 0).toNat ∧
    ∀ j < (schema.byte 0).toNat, RecordPasses schema args j

/-- There is a column, and the number of columns is wrong or the first record that does not pass differs. -/
def RecordsDiffer (schema : Page) (args : AddTupleArgs) : Prop :=
  0 < (schema.byte 0).toNat ∧ (args.1.length ≠ (schema.byte 0).toNat ∨
    ∃ j < (schema.byte 0).toNat, RecordDiffers schema args j ∧ ∀ l < j, RecordPasses schema args l)

section Decision

variable {schema : Page} {args : AddTupleArgs}

/-- A wrong number of columns is noticed at the first column. -/
theorem validateLoop_length {n : Nat} (hlen : args.1.length ≠ n + 1) :
    validateLoop schema (n + 1) args (n + 1) 0 0 = .ok false := by
  have hturn := @validateLoop_succ schema args (n + 1) n 0 (.inl rfl)
  rwa [if_pos (recordInPage_zero schema), if_pos hlen] at hturn

theorem validate_true : validate schema args = .ok true ↔ RecordsPass schema args := by
  rw [validate, RecordsPass]
  generalize (schema.byte 0).toNat = n
  by_cases hlen : args.1.length = n
  · have hloop := @validateLoop_true schema args n n 0 (.inl rfl) hlen (Nat.zero_add n)
    simp only [Nat.zero_le, forall_const] at hloop
    refine Iff.trans hloop ⟨fun h => .inr ⟨hlen, h⟩, ?_⟩
    rintro (rfl | ⟨-, h⟩)
    · exact fun j hj => absurd hj (Nat.not_lt_zero j)
    · exact h
  · cases n with
    | zero => exact iff_of_true rfl (.inl rfl)
    | succ n =>
      rw [validateLoop_length hlen]
      refine iff_of_false (by simp) ?_
      rintro (h | ⟨h, -⟩)
      · exact Nat.succ_ne_zero n h
      · exact hlen h

theorem validate_false : validate schema args = .ok false ↔ RecordsDiffer schema args := by
  rw [validate, RecordsDiffer]
  generalize (schema.byte 0).toNat = n
  by_cases hlen : args.1.length = n
  · refine Iff.trans (@validateLoop_false schema args n n 0 (.inl rfl) hlen (Nat.zero_add n)) ?_
    constructor
    · rintro ⟨j, -, hj, hdiff, hpass⟩
      exact ⟨by omega, .inr ⟨j, hj, hdiff, fun l => hpass l (Nat.zero_le l)⟩⟩
    · rintro ⟨-, hne | ⟨j, hj, hdiff, hpass⟩⟩
      · exact absurd hlen hne
      · exact ⟨j, Nat.zero_le j, hj, hdiff, fun l _ => hpass l⟩
  · cases n with
    | zero => exact iff_of_false (by simp [validateLoop]) (by simp)
    | succ n =>
      rw [validateLoop_length hlen]
      exact iff_of_true rfl ⟨Nat.succ_pos n, .inl hlen⟩

end Decision

/-! ## The records that are written -/

/-- Where the record of the column `j` is written. -/
def placedAt (cs : List Column) : Nat → Nat
  | 0 => 0
  | j + 1 => (j + 1) * ((cs[j]?.map fun c => schemaColumnSize c.name.length).getD 0)

/-- Every record lies in the schema page. -/
def RecordsFit (cs : List Column) : Prop :=
  ∀ j c, cs[j]? = some c → 1 + placedAt cs j + schemaColumnSize c.name.length ≤ 4096

/-- The offset that the loop has for the column behind `pre`. -/
def placedSize (pre : List Column) : Nat := (pre.getLast?.map fun c => schemaColumnSize c.name.length).getD 0

theorem placedAt_length (pre cs : List Column) :
    placedAt (pre ++ cs) pre.length = pre.length * placedSize pre := by
  rcases List.eq_nil_or_concat pre with rfl | ⟨pre, c, rfl⟩
  · simp [placedAt]
  · simp [placedAt, placedSize]

theorem placedSize_concat (pre : List Column) (c : Column) :
    placedSize (pre ++ [c]) = schemaColumnSize c.name.length := by
  simp [placedSize]

/-- One turn of the loop of `create_table`. -/
theorem writeColumns_cons {c : Column} {cs : List Column} {j size : Nat} {buf : Page}
    (h : 1 + j * size + schemaColumnSize c.name.length ≤ 4096) :
    writeColumns (c :: cs) j size buf =
      writeColumns cs (j + 1) (schemaColumnSize c.name.length) (buf.blit (1 + j * size) c.bytes) := by
  rw [writeColumns, memcpy_ok (by rw [Column.bytes_length]; exact h)]
  rfl

/-- The records that are left are written if each of them lies in the page. -/
theorem writeColumns_isOk (pre cs : List Column) (buf : Page) :
    (∃ schema, writeColumns cs pre.length (placedSize pre) buf = .ok schema) ↔
      ∀ j c, pre.length ≤ j → (pre ++ cs)[j]? = some c →
        1 + placedAt (pre ++ cs) j + schemaColumnSize c.name.length ≤ 4096 := by
  induction cs generalizing pre buf with
  | nil =>
    refine iff_of_true ⟨buf, rfl⟩ fun j c hj hc => ?_
    have hlt := (List.getElem?_eq_some_iff.mp hc).1
    rw [List.append_nil] at hlt
    omega
  | cons c cs ih =>
    have hfirst : (pre ++ c :: cs)[pre.length]? = some c := by simp
    have hplaced := placedAt_length pre (c :: cs)
    by_cases hfit : 1 + pre.length * placedSize pre + schemaColumnSize c.name.length ≤ 4096
    · have hih := ih (pre ++ [c]) (buf.blit (1 + pre.length * placedSize pre) c.bytes)
      rw [placedSize_concat, List.length_append, List.length_singleton, List.append_assoc,
        List.singleton_append] at hih
      rw [writeColumns_cons hfit, hih]
      constructor
      · intro h j c' hj hc'
        rcases Nat.lt_or_eq_of_le hj with hlt | rfl
        · exact h j c' hlt hc'
        · cases hfirst.symm.trans hc'
          rwa [hplaced]
      · exact fun h j c' hj => h j c' (by omega)
    · refine iff_of_false ?_ fun h => hfit ?_
      · rintro ⟨schema, hschema⟩
        rw [writeColumns, memcpy, if_neg (by rw [Column.bytes_length]; exact hfit)] at hschema
        cases hschema
      · rw [← hplaced]
        exact h _ c (Nat.le_refl _) hfirst

/-- The first byte is not written again. -/
theorem writeColumns_byte_zero {cs : List Column} {j size : Nat} {buf schema : Page}
    (h : writeColumns cs j size buf = .ok schema) : schema.byte 0 = buf.byte 0 := by
  induction cs generalizing j size buf with
  | nil => cases h; rfl
  | cons c cs ih =>
    by_cases hfit : 1 + j * size + schemaColumnSize c.name.length ≤ 4096
    · rw [writeColumns_cons hfit] at h
      rw [ih h, Block.byte_blit_disjoint _ (.inl (by omega))]
    · rw [writeColumns, memcpy, if_neg (by rw [Column.bytes_length]; exact hfit)] at h
      cases h

section Written

variable {columns : Columns} {schema : Page}

theorem schemaPage_isOk : (∃ schema, schemaPage columns = .ok schema) ↔ RecordsFit columns.1 := by
  have h := writeColumns_isOk [] columns.1 (Block.zero.blit 0 [UInt8.ofNat columns.1.length])
  simpa [schemaPage, placedSize, RecordsFit] using h

/-- The first byte is the number of columns. -/
theorem schemaPage_byte_zero (h : schemaPage columns = .ok schema) :
    (schema.byte 0).toNat = columns.1.length := by
  rw [schemaPage] at h
  rw [writeColumns_byte_zero h, Block.byte_blit _ _ _ _ (by omega)]
  simpa using columns.2

/-- `create_table` returns exactly if the records lie in the page. -/
theorem createTable_isOk {mem : DiskManager} :
    (∃ d, createTable columns mem = (.ok (), d)) ↔ RecordsFit columns.1 := by
  rw [← schemaPage_isOk]
  constructor
  · rintro ⟨d, hd⟩
    obtain ⟨schema, hschema, -⟩ := createTable_eq_ok hd
    exact ⟨schema, hschema⟩
  · rintro ⟨schema, hschema⟩
    obtain ⟨d, hd, -⟩ := createTable_of_schema mem hschema
    exact ⟨d, hd⟩

end Written

/-! ## Names of ascending length -/

/-- The names before the last one do not get shorter, so that no record is written over another. -/
def NamesAscend (cs : List Column) : Prop :=
  ∀ j c c', j + 2 < cs.length → cs[j]? = some c → cs[j + 1]? = some c' → c.name.length ≤ c'.name.length

/-- The page has the record of the column `c` at the offset `off`. -/
def RecordAt (page : Page) (off : Nat) (c : Column) : Prop :=
  page.slice (1 + off) (schemaColumnSize c.name.length) = c.bytes

theorem placedAt_succ {cs : List Column} {j : Nat} {c : Column} (hc : cs[j]? = some c) :
    placedAt cs (j + 1) = (j + 1) * schemaColumnSize c.name.length := by
  simp [placedAt, hc]

/-- A record lies behind those before it. -/
theorem NamesAscend.placed_apart {cs : List Column} (h : NamesAscend cs) {j k : Nat} {c : Column}
    (hc : cs[j]? = some c) (hjk : j < k) (hk : k < cs.length) :
    placedAt cs j + schemaColumnSize c.name.length ≤ placedAt cs k := by
  have hnext : ∀ {i : Nat} {c : Column}, cs[i]? = some c → i + 1 < cs.length →
      placedAt cs i + schemaColumnSize c.name.length ≤ placedAt cs (i + 1) := by
    intro i c hc hi
    rw [placedAt_succ hc, Nat.succ_mul]
    refine Nat.add_le_add_right ?_ _
    cases i with
    | zero => simp [placedAt]
    | succ i =>
      obtain ⟨c₀, hc₀⟩ : ∃ c₀, cs[i]? = some c₀ := ⟨_, List.getElem?_eq_getElem (by omega)⟩
      have hle := h i c₀ c hi hc₀ hc
      rw [placedAt_succ hc₀]
      refine Nat.mul_le_mul_left _ ?_
      simp only [schemaColumnSize]
      omega
  induction k with
  | zero => omega
  | succ k ih =>
    rcases Nat.lt_or_eq_of_le (Nat.le_of_lt_succ hjk) with hlt | rfl
    · obtain ⟨c', hc'⟩ : ∃ c', cs[k]? = some c' := ⟨_, List.getElem?_eq_getElem (by omega)⟩
      exact Nat.le_trans (ih hlt (by omega)) (Nat.le_trans (Nat.le_add_right _ _) (hnext hc' hk))
    · exact hnext hc hk

/-- The records that were written stay, and the next one is written behind them. -/
theorem writeColumns_recordAt {pre cs : List Column} {buf schema : Page} (hasc : NamesAscend (pre ++ cs))
    (hpre : ∀ j c, pre[j]? = some c → RecordAt buf (placedAt (pre ++ cs) j) c)
    (h : writeColumns cs pre.length (placedSize pre) buf = .ok schema) {j : Nat} {c : Column}
    (hc : (pre ++ cs)[j]? = some c) : RecordAt schema (placedAt (pre ++ cs) j) c := by
  induction cs generalizing pre buf with
  | nil =>
    cases h
    exact hpre j c (by rwa [List.append_nil] at hc)
  | cons c₀ cs ih =>
    have hplaced := placedAt_length pre (c₀ :: cs)
    have hlen : pre.length < (pre ++ c₀ :: cs).length := by simp
    by_cases hfit : 1 + pre.length * placedSize pre + schemaColumnSize c₀.name.length ≤ 4096
    · rw [writeColumns_cons hfit, ← placedSize_concat pre c₀] at h
      have happend : pre ++ c₀ :: cs = pre ++ [c₀] ++ cs := by simp
      have hwritten : ∀ i c', (pre ++ [c₀])[i]? = some c' →
          RecordAt (buf.blit (1 + pre.length * placedSize pre) c₀.bytes) (placedAt (pre ++ c₀ :: cs) i) c' := by
        intro i c' hc'
        rcases getElem?_concat_cases hc' with ⟨hlt, hc'⟩ | ⟨rfl, rfl⟩
        · have hapart := hasc.placed_apart (by rwa [List.getElem?_append_left hlt]) hlt hlen
          rw [RecordAt, Block.slice_blit_disjoint _ (.inl (by omega))]
          exact hpre i c' hc'
        · rw [hplaced]
          exact Block.slice_blit_of_length _ (Column.bytes_length _) hfit
      rw [happend] at hasc hc hwritten ⊢
      exact ih hasc hwritten (by rwa [List.length_append]) hc
    · rw [writeColumns, memcpy, if_neg (by rw [Column.bytes_length]; exact hfit)] at h
      cases h

section Ascending

variable {columns : Columns} {schema : Page} {j : Nat} {c : Column}

theorem schemaPage_recordAt (hasc : NamesAscend columns.1) (h : schemaPage columns = .ok schema)
    (hc : columns.1[j]? = some c) : RecordAt schema (placedAt columns.1 j) c :=
  @writeColumns_recordAt [] columns.1 _ schema hasc (by simp) h j c hc

/-- The fields of a record. -/
theorem RecordAt.fields {off : Nat} (h : RecordAt schema off c) :
    (schema.byte (1 + off)).toNat = c.name.length ∧ schema.slice (1 + off + 1) c.name.length = c.name ∧
      schema.byte (1 + (off + c.name.length + 1)) = c.type.code := by
  rw [RecordAt, schemaColumnSize, Column.bytes, Nat.add_assoc, Block.slice_add, Block.slice_one,
    Block.slice_add, Block.slice_one] at h
  simp only [List.singleton_append, List.cons.injEq] at h
  obtain ⟨hlen, hrest⟩ := h
  obtain ⟨hname, htype⟩ := List.append_inj hrest (by simp)
  refine ⟨?_, hname, ?_⟩
  · rw [hlen, UInt8.toNat_ofNat', Nat.mod_eq_of_lt c.name_len]
  · rw [show 1 + (off + c.name.length + 1) = 1 + off + 1 + c.name.length by omega]
    exact List.singleton_inj.mp htype

/-- The records are found as they were written. -/
theorem recordOffset_eq (hasc : NamesAscend columns.1) (h : schemaPage columns = .ok schema)
    (hj : j < columns.1.length) : recordOffset schema j = placedAt columns.1 j := by
  induction j with
  | zero => rfl
  | succ j ih =>
    obtain ⟨c, hc⟩ : ∃ c, columns.1[j]? = some c := ⟨_, List.getElem?_eq_getElem (by omega)⟩
    rw [recordOffset, ih (by omega), (schemaPage_recordAt hasc h hc).fields.1, placedAt_succ hc]

theorem record_eq (hasc : NamesAscend columns.1) (h : schemaPage columns = .ok schema)
    (hc : columns.1[j]? = some c) : RecordInPage schema j ∧ recordName schema j = c.name ∧
      recordType schema j = c.type.code := by
  have hj := (List.getElem?_eq_some_iff.mp hc).1
  have hfit := schemaPage_isOk.mp ⟨schema, h⟩ j c hc
  obtain ⟨hlen, hname, htype⟩ := (schemaPage_recordAt hasc h hc).fields
  rw [RecordInPage, recordName, recordType, recordNameLen, recordOffset_eq hasc h hj, hlen]
  rw [schemaColumnSize] at hfit
  exact ⟨by omega, hname, htype⟩

end Ascending

/-- Names without a null character are compared up to the length of the first. -/
theorem strncmpEq_iff_prefix {buf str : List UInt8} (h : 0 ∉ buf) : strncmpEq buf str = true ↔ buf <+: str := by
  induction buf generalizing str with
  | nil => simp [strncmpEq]
  | cons a buf ih =>
    have ha : a ≠ 0 := fun h0 => h (h0 ▸ List.mem_cons_self ..)
    have hbuf : 0 ∉ buf := fun h0 => h (List.mem_cons_of_mem _ h0)
    cases str with
    | nil => simp [strncmpEq, ha]
    | cons b str => simp [strncmpEq, ha, ih hbuf, List.cons_prefix_cons]

end SomeDB
