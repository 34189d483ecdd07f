import SomeDB.Disk.Latches
import SomeDB.Disk.SchemaCheck

/-!
# Free space

Two accounts of the free space of a page are kept: the header of the page and the entry of the directory. Neither is
looked at by `add_tuple` before it writes: the page is chosen by the address of its entry, and the null test after
that is one of a pointer that `malloc` returned.

* `add_tuple_noRoom_iff`: without room nothing is written only where the schema check stops the call.
* `heap_run_neverOverstates`: a new page takes 10 bytes and a tuple 4 bytes that are never charged to the entry, so
  the entry is right only if that much was charged for tuples that are no longer in the page.
-/

namespace SomeDB

open Lib

/-! ## No room -/

/-- No user page that was started has room for the tuple and its pointer. -/
def NoRoom (d : DiskManager) (args : AddTupleArgs) : Prop :=
  ∀ (p : PageId) (page : Page), 2 ≤ p.toNat → d.file p = some page →
    (extractHeader page).freeEnd.toNat < (extractHeader page).freeStart.toNat + ((tupleBytes args).length + 4)

/-- Without room for a tuple that conforms to the columns, `add_tuple`, with its latches free, returns and changes
nothing, and its latches are free again. -/
def NoRoomSafe (columns : Columns) (d : DiskManager) (args : AddTupleArgs) : Prop :=
  ConformsTo columns args → NoRoom d args → ∀ (p : Nat) (h : Latched.Latch → Bool),
    h (.diskManager p) = false → h (.hashTable (.pageDirectory p)) = false →
    Latched.addTuple (.diskManager p) (.hashTable (.pageDirectory p)) args false ⟨d, h⟩ = (.ok none, ⟨d, h⟩)

/-- The call comes to the schema check and stops there: page 2 was started, the tuple has fewer bytes than a
`uint16_t` counts, and it differs from the records that are found in the schema page, in a way that can be printed. -/
def Stopped (d : DiskManager) (args : AddTupleArgs) : Prop :=
  (∃ page, d.file 2 = some page) ∧ (tupleBytes args).length < 65536 ∧
    ∃ schema, d.file 1 = some schema ∧ RecordsDiffer schema args

section NoRoom

variable {d d' : DiskManager} {args : AddTupleArgs}

/-- A tuple whose bytes are more than a `uint16_t` counts does not fit in its buffer. -/
theorem addTuple_length {r : Option TuplePtr} (h : addTuple args d = (.ok r, d')) :
    (tupleBytes args).length < 65536 := by
  rw [addTuple] at h
  obtain ⟨buf, hbuf, -⟩ := Prog.lift_bind_eq_ok h
  obtain ⟨hbytes, hle⟩ := encodeTuple_ok hbuf (Nat.zero_le _)
  have hlt := (tupleSize args).toNat_lt
  have hbuf' : buf = tupleBytes args := hbytes
  rw [hbuf'] at hle
  omega

theorem addTuple_none_iff {free : Nat → UInt16} {dir schema : Page} (hdir : DirHolds d.pageDirectory free)
    (h0 : d.file 0 = some dir) (h1 : d.file 1 = some schema) :
    addTuple args d = (.ok none, d) ↔ Stopped d args := by
  constructor
  · intro hadd
    obtain ⟨page, h2, ⟨hvalid, -⟩ | ⟨_, _, -, hsome, -⟩⟩ := addTuple_cases hdir h0 h1 hadd
    · exact ⟨⟨page, h2⟩, addTuple_length hadd, schema, h1, validate_false.mp hvalid⟩
    · cases hsome
  · rintro ⟨⟨page, h2⟩, hlt, schema', h1', hdiff⟩
    exact addTuple_rejects hdir h1' h2 (validate_false.mpr hdiff) hlt

/-- With its latches free, `add_tuple` does what it does without latches. -/
theorem latched_addTuple_none_iff {p : Nat} {h : Latched.Latch → Bool} (hl : h (.diskManager p) = false)
    (hlt : h (.hashTable (.pageDirectory p)) = false) :
    Latched.addTuple (.diskManager p) (.hashTable (.pageDirectory p)) args false ⟨d, h⟩ = (.ok none, ⟨d, h⟩) ↔
      addTuple args d = (.ok none, d) := by
  have hfollows : Follows (fun _ => False) _ (Unlatched.addTuple args false) h (fun _ => h) d :=
    Latched.addTuple_follows (l := .diskManager p) (by simp [hl]) (by simp [hlt])
      (show Latched.Latch.hashTable (.pageDirectory p) ≠ .diskManager p from nofun) args false d
  constructor
  · intro hrun
    cases hfollows with
    | waits hw _ => exact hw.elim
    | returns hplain hm => rw [hrun] at hm; cases hm; exact hplain
    | faults _ hm => rw [hrun] at hm; cases hm
  · exact fun hplain => hfollows.ok_of_free (fun _ => id) hplain

theorem noRoomSafe_iff {columns : Columns} : NoRoomSafe columns d args ↔
    (ConformsTo columns args → NoRoom d args → addTuple args d = (.ok none, d)) := by
  refine forall_congr' fun _ => forall_congr' fun _ => ⟨fun hall => ?_, fun hplain p h hl hlt => ?_⟩
  · exact (latched_addTuple_none_iff (p := 0) rfl rfl).mp (hall 0 (fun _ => false) rfl rfl)
  · exact (latched_addTuple_none_iff hl hlt).mpr hplain

/-- No page but page 2 can have room. -/
theorem TableState.noRoom_iff {schema page : Page} (h : TableState schema d) (h2 : d.file 2 = some page) :
    NoRoom d args ↔
      (extractHeader page).freeEnd.toNat < (extractHeader page).freeStart.toNat + ((tupleBytes args).length + 4) := by
  refine ⟨fun hno => hno 2 page (Nat.le_refl 2) h2, fun hlt p page' hp hpage => ?_⟩
  rcases Nat.lt_or_eq_of_le hp with hp | heq
  · rw [h.rest p hp] at hpage
    cases hpage
  · obtain rfl : p = 2 := UInt32.toNat_inj.mp heq.symm
    cases h2.symm.trans hpage
    exact hlt

end NoRoom

/-- **No room.** In every state of a table, `add_tuple` answers a tuple that conforms to the columns, and that no page
has room for, by changing nothing and releasing its latch exactly if the schema check stops it. -/
theorem add_tuple_noRoom_iff {columns : Columns} {mem d₀ d : DiskManager} {u : Unit}
    (hcreate : createTable columns mem = (.ok u, d₀)) {ops : List HeapOp} {rs : List Unit}
    (hrun : Prog.runAll heapOp ops d₀ = (.ok rs, d)) (args : AddTupleArgs) :
    NoRoomSafe columns d args ↔ (ConformsTo columns args → NoRoom d args → Stopped d args) := by
  obtain ⟨free, hdir, -, ⟨dir, h0⟩, schema, h1⟩ := heap_run_directory hcreate hrun
  rw [noRoomSafe_iff, addTuple_none_iff hdir h0 h1]

/-- Four columns of strings whose last record is written over the one before it, and a tuple for them that no page has
room for. -/
def unevenTextColumns : Columns :=
  ⟨[⟨[97], .string, Column.length_a⟩, ⟨[98, 98, 98], .string, Column.length_bbb⟩,
    ⟨[99], .string, Column.length_c⟩, ⟨[100], .string, Column.length_d⟩], by decide⟩
def unevenText (text : List UInt8) : AddTupleArgs :=
  ⟨[([97], .string text), ([98, 98, 98], .string []), ([99], .string []), ([100], .string [])], by simp⟩
def unevenTextArgs : AddTupleArgs := unevenText (List.replicate 4085 97)

def unevenTextSchema : Page :=
  ((((Block.zero.blit 0 [4]).blit 1 [1, 97, 2]).blit 4 [3, 98, 98, 98, 2]).blit 11 [1, 99, 2]).blit 10 [1, 100, 2]

theorem tupleBytes_unevenTextArgs : (tupleBytes unevenTextArgs).length = 4093 := by
  have hlen : ∀ text, text.length < 65536 → (tupleBytes (unevenText text)).length = 8 + text.length := by
    intro text htext
    simp [tupleBytes, unevenText, ColumnValue.bytes, Nat.mod_eq_of_lt htext]
    omega
  rw [unevenTextArgs, hlen _ (by rw [List.length_replicate]; omega), List.length_replicate]

/-- A string of 8 characters, and so a tuple of 10 bytes. -/
def shortArgs : AddTupleArgs := textArgs (List.replicate 8 97)

/-- A page with two short tuples, one of them removed. -/
theorem shortArgs_run : ∃ d₀ d page, createTable textColumns blankMemory = (.ok (), d₀) ∧
    Prog.runAll heapOp [.newPage, .add shortArgs, .add shortArgs, .remove ⟨2, 0⟩] d₀ = (.ok [(), (), (), ()], d) ∧
    d.file 1 = some textSchema ∧ d.file 2 = some page ∧
    Holds page [⟨tupleBytes shortArgs, true⟩, ⟨tupleBytes shortArgs, false⟩] := by
  obtain ⟨d₀, hcreate, hcreated⟩ := createTable_of_schema blankMemory
    (show schemaPage textColumns = .ok textSchema from rfl)
  have hnew := newHeapPage_ok hcreated.directory
  obtain ⟨-, -, htable⟩ := TablePage.of_newHeapPage hcreated.directory hcreated.page0 hcreated.page1 hnew
  have hvalid : validate textSchema shortArgs = .ok true := rfl
  have hroom : FitTogether [.add shortArgs, .add shortArgs] := by rw [FitTogether]; decide
  obtain ⟨ptr, d₁, hadd, htable₁, -⟩ := htable.addTuple
    (htable.fits Slots.nil ⟨[.add shortArgs], rfl⟩ hvalid hroom)
  obtain ⟨ptr', d₂, hadd', htable₂, -⟩ := htable₁.addTuple
    (htable₁.fits (Slots.nil.add shortArgs (by simp)) ⟨[], rfl⟩ hvalid hroom)
  obtain ⟨d₃, hremove, htable₃⟩ := htable₂.removeTuple (i := 0) (by simp)
  obtain ⟨page, h2, hholds⟩ := htable₃.page2
  refine ⟨d₀, d₃, page, hcreate, ?_, htable₃.page1, h2, hholds⟩
  refine Prog.runAll_cons_ok (show heapOp .newPage d₀ = (.ok (), d₀.withNewPage) from ?_)
    (Prog.runAll_cons_ok (show heapOp (.add shortArgs) d₀.withNewPage = (.ok (), d₁) from ?_)
      (Prog.runAll_cons_ok (show heapOp (.add shortArgs) d₁ = (.ok (), d₂) from ?_)
        (Prog.runAll_cons_ok hremove rfl)))
  · rw [heapOp, Prog.bind_ok hnew]
    rfl
  · rw [heapOp, Prog.bind_ok hadd]
    rfl
  · rw [heapOp, Prog.bind_ok hadd']
    rfl

/-- The tuple of four strings is stopped by the check. The long string, on a page with two tuples, is not. -/
theorem add_tuple_noRoom_iff_text :
    (∃ d₀ d, createTable unevenTextColumns blankMemory = (.ok (), d₀) ∧
      Prog.runAll heapOp [.newPage] d₀ = (.ok [()], d) ∧ ConformsTo unevenTextColumns unevenTextArgs ∧
      NoRoom d unevenTextArgs ∧ NoRoomSafe unevenTextColumns d unevenTextArgs) ∧
    (∃ d₀ d, createTable textColumns blankMemory = (.ok (), d₀) ∧
      Prog.runAll heapOp [.newPage, .add shortArgs, .add shortArgs, .remove ⟨2, 0⟩] d₀ = (.ok [(), (), (), ()], d) ∧
      ¬ NoRoomSafe textColumns d longArgs) := by
  constructor
  · obtain ⟨d₀, hcreate, hrun, hstate, -⟩ := newPage_state blankMemory
      (show schemaPage unevenTextColumns = .ok unevenTextSchema from rfl)
    have hno : NoRoom d₀.withNewPage unevenTextArgs := by
      rw [hstate.noRoom_iff (withNewPage_file_two d₀), newHeapPageBuf, extractHeader_construct,
        tupleBytes_unevenTextArgs]
      decide
    refine ⟨d₀, _, hcreate, hrun, rfl, hno, (add_tuple_noRoom_iff hcreate hrun unevenTextArgs).mpr fun _ _ => ?_⟩
    exact ⟨⟨_, withNewPage_file_two d₀⟩, by rw [tupleBytes_unevenTextArgs]; decide, unevenTextSchema, hstate.page1,
      validate_false.mp rfl⟩
  · obtain ⟨d₀, d, page, hcreate, hrun, h1, h2, hholds⟩ := shortArgs_run
    refine ⟨d₀, d, hcreate, hrun, fun hsafe => ?_⟩
    rw [add_tuple_noRoom_iff hcreate hrun longArgs] at hsafe
    have hstate := TableState.run hcreate (show schemaPage textColumns = .ok textSchema from rfl)
      (by simp [RemovesUser]) hrun
    have hno : NoRoom d longArgs := by
      have hstart := hholds.freeStart
      have hend := hholds.freeEnd
      simp only [List.length_cons, List.length_nil] at hstart
      rw [hstate.noRoom_iff h2, tupleBytes_longArgs]
      omega
    obtain ⟨-, -, schema, h1', hdiff⟩ := hsafe rfl hno
    cases h1.symm.trans h1'
    exact (validate_true.mp (show validate textSchema longArgs = .ok true from rfl)).not_differ hdiff

/-- A string of 4085 characters is stored in a page with 4090 free bytes. -/
theorem add_tuple_noRoom_fails : ∃ d₀ d₁ r d, createTable textColumns blankMemory = (.ok (), d₀) ∧
    newHeapPage d₀ = (.ok 2, d₁) ∧ ConformsTo textColumns longArgs ∧ NoRoom d₁ longArgs ∧
    addTuple longArgs d₁ = (.ok (some r), d) ∧ ¬ NoRoomSafe textColumns d₁ longArgs := by
  obtain ⟨d₀, d₁, r, d, page, hcreate, hnew, -, -, h2, hrest, hadd, -⟩ := longArgs_run
  have hno : NoRoom d₁ longArgs := by
    intro p page hp hpage
    by_cases hp2 : p = 2
    · subst hp2
      rw [h2] at hpage
      cases hpage
      rw [newHeapPageBuf, extractHeader_construct, tupleBytes_longArgs]
      decide
    · rw [hrest p (by rintro rfl; simp at hp) (by rintro rfl; simp at hp) hp2] at hpage
      cases hpage
  have hconf : ConformsTo textColumns longArgs := rfl
  refine ⟨d₀, d₁, r, d, hcreate, hnew, hconf, hno, hadd, fun hsafe => ?_⟩
  rw [noRoomSafe_iff.mp hsafe hconf hno] at hadd
  cases hadd

/-! ## Too much space -/

/-- The entry of page `p` in the directory in memory. -/
def Entry (d : DiskManager) (p : Nat) (v : UInt16) : Prop :=
  ∃ el ht, hashFind true (sprintfU p) d.pageDirectory = (.ok (some el), ht) ∧ el.data.value = v

theorem DirHolds.entry_iff {d : DiskManager} {free : Nat → UInt16} (h : DirHolds d.pageDirectory free) {p : Nat}
    (h2 : 2 ≤ p) (hp : p < 500) {v : UInt16} : Entry d p v ↔ v = free p := by
  obtain ⟨c, hc, hval⟩ := h.find h2 hp
  constructor
  · rintro ⟨el, ht, hel, rfl⟩
    rw [hc] at hel
    cases hel
    exact hval
  · rintro rfl
    exact ⟨_, _, hc, hval⟩

/-- Of every user page that was started, the entry is at most the room that is left in it for one tuple. -/
def NeverOverstates (d : DiskManager) : Prop :=
  ∀ (p : PageId) (page : Page) (v : UInt16), 2 ≤ p.toNat → p.toNat < 500 → d.file p = some page → Entry d p.toNat v →
    ∀ s ≤ v.toNat, (extractHeader page).freeStart.toNat + (s + 4) ≤ (extractHeader page).freeEnd.toNat

/-- A tuple that is stored is not greater than the entry of its page, which would wrap. -/
def NoWrapAt (d : DiskManager) : HeapOp → Prop
  | .add args => (∃ ptr d', addTuple args d = (.ok (some ptr), d')) →
    ∀ p v, (findSpaciousPage (tupleSize args) userPages d).1 = .ok (some p) → Entry d p v → tupleSize args ≤ v
  | .newPage => True
  | .remove _ => True

/-- The account of a run: the bytes that were charged to the entry, and the tuples of the page since it was started
last. -/
structure Account where
  charged : Nat
  page : Option (List (List UInt8))

def Account.step (schema : Page) (a : Account) : HeapOp → Account
  | .newPage => { a with page := some [] }
  | .add args =>
    if accepts schema args = true then
      { charged := a.charged + (tupleBytes args).length, page := a.page.map (· ++ [tupleBytes args]) }
    else a
  | .remove _ => a

def account (schema : Page) (a : Account) (ops : List HeapOp) : Account := ops.foldl (Account.step schema) a

/-- The entry and the page are right by the account: no page was started, or the entry did not wrap and was charged
for 10 bytes of the page and 4 of each of its tuples. -/
def Account.Covers (a : Account) : Prop :=
  ∀ tuples, a.page = some tuples → a.charged ≤ 4096 ∧
    10 + 4 * tuples.length + (tuples.map List.length).sum ≤ a.charged

/-- The table is as the account says. -/
structure Accounted (schema : Page) (a : Account) (d : DiskManager) : Prop where
  state : TableState schema d
  entry : ∃ free, DirHolds d.pageDirectory free ∧ free 2 = 4096 - UInt16.ofNat a.charged
  fresh : a.page = none → d.file 2 = none ∧ a.charged = 0
  page : ∀ tuples, a.page = some tuples → ∃ page, d.file 2 = some page ∧
    (extractHeader page).freeStart.toNat = 5 + 4 * tuples.length ∧
    (extractHeader page).freeEnd.toNat + (tuples.map List.length).sum = 4095

section Account

variable {schema : Page} {a : Account} {d d' : DiskManager}

theorem Account.charged_le (op : HeapOp) : a.charged ≤ (a.step schema op).charged := by
  cases op with
  | newPage => exact Nat.le_refl _
  | remove rid => exact Nat.le_refl _
  | add args =>
    rw [Account.step]
    split
    · exact Nat.le_add_right _ _
    · exact Nat.le_refl _

theorem account_charged_le (ops : List HeapOp) : a.charged ≤ (account schema a ops).charged := by
  induction ops generalizing a with
  | nil => exact Nat.le_refl _
  | cons op ops ih => exact Nat.le_trans (Account.charged_le op) ih

/-- The entry, as long as it did not wrap. -/
theorem entry_toNat (h : a.charged ≤ 4096) : ((4096 : UInt16) - UInt16.ofNat a.charged).toNat = 4096 - a.charged := by
  have hnat : (UInt16.ofNat a.charged).toNat = a.charged := by
    rw [UInt16.toNat_ofNat', Nat.mod_eq_of_lt (by omega)]
  rw [UInt16.toNat_sub_of_le _ _ (UInt16.le_iff_toNat_le.mpr (by rw [hnat]; exact h)), hnat]
  rfl

namespace Accounted

/-- The entry covers what is left in the page. -/
theorem neverOverstates_iff (h : Accounted schema a d) (hle : a.charged ≤ 4096) :
    NeverOverstates d ↔ a.Covers := by
  obtain ⟨free, hdir, hfree⟩ := h.entry
  have hval := entry_toNat hle
  rw [← hfree] at hval
  constructor
  · intro hnever tuples htuples
    obtain ⟨page, h2, hstart, hend⟩ := h.page tuples htuples
    have hroom := hnever 2 page (free 2) (Nat.le_refl 2) (by decide) h2
      ((hdir.entry_iff (Nat.le_refl 2) (by omega)).mpr rfl) _ (Nat.le_refl _)
    exact ⟨hle, by omega⟩
  · intro hcovers p page v hp _ hpage hentry s hs
    rcases Nat.lt_or_eq_of_le hp with hlt | heq
    · rw [h.state.rest p hlt] at hpage
      cases hpage
    · obtain rfl : p = 2 := UInt32.toNat_inj.mp heq.symm
      obtain rfl := (hdir.entry_iff (Nat.le_refl 2) (by omega)).mp hentry
      cases htuples : a.page with
      | none =>
        rw [(h.fresh htuples).1] at hpage
        cases hpage
      | some tuples =>
        obtain ⟨page', h2, hstart, hend⟩ := h.page tuples htuples
        obtain rfl : page = page' := Option.some.inj (hpage.symm.trans h2)
        have := (hcovers tuples htuples).2
        omega

/-- Page 2 is in the file only after it was started. -/
theorem started (h : Accounted schema a d) {page : Page} (h2 : d.file 2 = some page) :
    ∃ tuples, a.page = some tuples := by
  cases hpage : a.page with
  | none =>
    rw [(h.fresh hpage).1] at h2
    cases h2
  | some tuples => exact ⟨tuples, rfl⟩

/-- A tuple that is stored does not wrap the entry exactly if the account with it is within a page. -/
theorem noWrapAt_add_iff (h : Accounted schema a d) {args : AddTupleArgs} (hle : a.charged ≤ 4096) {ptr : TuplePtr}
    (hadd : addTuple args d = (.ok (some ptr), d')) (hsize : (tupleBytes args).length = (tupleSize args).toNat) :
    NoWrapAt d (.add args) ↔ a.charged + (tupleBytes args).length ≤ 4096 := by
  obtain ⟨free, hdir, hfree⟩ := h.entry
  have hval := entry_toNat hle
  rw [← hfree] at hval
  constructor
  · intro hwrap
    have hfits := hwrap ⟨ptr, _, hadd⟩ 2 (free 2) (by rw [findSpaciousPage_first hdir])
      ((hdir.entry_iff (Nat.le_refl 2) (by omega)).mpr rfl)
    rw [UInt16.le_iff_toNat_le] at hfits
    omega
  · intro hle' _ p v hfind hentry
    rw [findSpaciousPage_first hdir] at hfind
    cases hfind
    obtain rfl := (hdir.entry_iff (Nat.le_refl 2) (by omega)).mp hentry
    rw [UInt16.le_iff_toNat_le]
    omega

/-- A call is accounted for. The entry does not wrap if the charge stays within a page. -/
theorem step (h : Accounted schema a d) {op : HeapOp} {u : Unit} (hop : ∀ rid, op ≠ .remove rid)
    (hrun : heapOp op d = (.ok u, d')) : Accounted schema (a.step schema op) d' ∧
      (a.charged ≤ 4096 → (NoWrapAt d op ↔ (a.step schema op).charged ≤ 4096)) := by
  have hstate := h.state.step (fun rid he => absurd he (hop rid)) hrun
  obtain ⟨free, hdir, hfree⟩ := h.entry
  obtain ⟨dir, h0⟩ := h.state.page0
  cases op with
  | remove rid => exact absurd rfl (hop rid)
  | newPage =>
    rw [heapOp, Prog.bind_ok (newHeapPage_ok hdir)] at hrun
    cases hrun
    refine ⟨⟨hstate, ⟨free, hdir, hfree⟩, fun hnone => (Option.some_ne_none _ hnone).elim, ?_⟩,
      fun hle => iff_of_true trivial hle⟩
    rintro tuples htuples
    cases htuples
    refine ⟨_, withNewPage_file_two d, ?_⟩
    rw [newHeapPageBuf, extractHeader_construct]
    exact ⟨rfl, rfl⟩
  | add args =>
    rw [heapOp] at hrun
    obtain ⟨r, d₁, hadd, hrun⟩ := Prog.bind_eq_ok hrun
    cases hrun
    obtain ⟨page, h2, ⟨hvalid, rfl, rfl⟩ | ⟨page', ptr, hvalid, rfl, hsize, hstore, hdir', hfile⟩⟩ :=
      addTuple_cases hdir h0 h.state.page1 hadd
    · have haccepts : ¬ accepts schema args = true := by simp [accepts, hvalid]
      rw [Account.step, if_neg haccepts]
      refine ⟨h, fun hle => iff_of_true ?_ hle⟩
      rintro ⟨ptr, d', hsome⟩
      rw [hadd] at hsome
      cases hsome
    · have haccepts : accepts schema args = true := by simp [accepts, hvalid]
      obtain ⟨hstart₀, hlt, -, rfl, -⟩ := storeTuple_eq_ok hsize hstore
      rw [Account.step, if_pos haccepts]
      obtain ⟨tuples, htuples⟩ := h.started h2
      obtain ⟨page₀, h2', hstart, hend⟩ := h.page tuples htuples
      obtain rfl : page = page₀ := Option.some.inj (h2.symm.trans h2')
      have hofNat : UInt16.ofNat (tupleBytes args).length = tupleSize args := by rw [hsize, UInt16.ofNat_toNat]
      refine ⟨⟨hstate, ⟨_, hdir', ?_⟩, ?_, ?_⟩, fun hle => ?_⟩
      · simp only [if_true, hfree, UInt16.ofNat_add, hofNat]
        grind
      · simp [htuples]
      · intro tuples' htuples'
        rw [htuples] at htuples'
        cases htuples'
        refine ⟨_, by rw [hfile, Disk.write_ne _ _ (by decide), Disk.write_same], ?_⟩
        obtain ⟨hstart₁, hend₁⟩ := withTuple_bounds (tupleBytes args) hstart₀ hlt
        rw [List.map_append, List.sum_append, List.length_append, List.map_singleton, List.sum_singleton,
          List.length_singleton]
        omega
      · exact h.noWrapAt_add_iff hle hadd hsize

/-- A run is accounted for. -/
theorem run (h : Accounted schema a d) {ops : List HeapOp} (hops : ∀ rid, .remove rid ∉ ops) {rs : List Unit}
    (hrun : Prog.runAll heapOp ops d = (.ok rs, d')) : Accounted schema (account schema a ops) d' ∧
      (a.charged ≤ 4096 → (Prog.Meets heapOp NoWrapAt ops d ↔ (account schema a ops).charged ≤ 4096)) := by
  induction ops generalizing a d rs with
  | nil =>
    cases hrun
    exact ⟨h, fun hle => iff_of_true trivial hle⟩
  | cons op ops ih =>
    obtain ⟨b, bs, d₁, hstep, hrest, -⟩ := Prog.runAll_cons_eq_ok hrun
    obtain ⟨h₁, hwrap₁⟩ := h.step (fun rid he => hops rid (he ▸ List.mem_cons_self ..)) hstep
    obtain ⟨h₂, hwrap₂⟩ := ih h₁ (fun rid hmem => hops rid (List.mem_cons_of_mem _ hmem)) hrest
    refine ⟨h₂, fun hle => ?_⟩
    rw [Prog.Meets, hwrap₁ hle, hstep]
    constructor
    · rintro ⟨hle₁, hmeets⟩
      exact (hwrap₂ hle₁).mp hmeets
    · intro hle₂
      have hle₁ := Nat.le_trans (account_charged_le ops) hle₂
      exact ⟨hle₁, (hwrap₂ hle₁).mpr hle₂⟩

end Accounted

end Account

/-- **The directory entry.** In every run of `new_heap_page` and `add_tuple` on a new table that returns, no entry
wraps and none overstates the room in its page exactly if no page was started, or at most 4096 bytes were charged in
all, of which 10 for the page and 4 for each of its tuples were charged for tuples that are no longer in it. -/
theorem heap_run_neverOverstates {columns : Columns} {schema : Page} {mem d₀ d : DiskManager} {u : Unit}
    (hcreate : createTable columns mem = (.ok u, d₀)) (hschema : schemaPage columns = .ok schema)
    {ops : List HeapOp} (hops : ∀ rid, .remove rid ∉ ops) {rs : List Unit}
    (hrun : Prog.runAll heapOp ops d₀ = (.ok rs, d)) :
    NeverOverstates d ∧ Prog.Meets heapOp NoWrapAt ops d₀ ↔ (account schema ⟨0, none⟩ ops).Covers := by
  obtain ⟨schema', hschema', hcreated⟩ := createTable_eq_ok hcreate
  rw [hschema] at hschema'
  cases hschema'
  have hnew : Accounted schema ⟨0, none⟩ d₀ :=
    ⟨hcreated.tableState, ⟨_, hcreated.directory, rfl⟩,
      fun _ => ⟨hcreated.rest 2 (by decide) (by decide), rfl⟩, fun tuples htuples => by cases htuples⟩
  obtain ⟨hrun', hwrap⟩ := hnew.run hops hrun
  rw [hwrap (Nat.zero_le _)]
  constructor
  · rintro ⟨hnever, hle⟩
    exact (hrun'.neverOverstates_iff hle).mp hnever
  · intro hcovers
    have hle : (account schema ⟨0, none⟩ ops).charged ≤ 4096 := by
      cases hpage : (account schema ⟨0, none⟩ ops).page with
      | none => rw [(hrun'.fresh hpage).2]; exact Nat.zero_le _
      | some tuples => exact (hcovers tuples hpage).1
    exact ⟨(hrun'.neverOverstates_iff hle).mpr hcovers, hle⟩

/-- A tuple of 10 bytes is lost with the page, and the entry is right again. -/
theorem heap_run_neverOverstates_restart : ∃ d₀ d, createTable textColumns blankMemory = (.ok (), d₀) ∧
    Prog.runAll heapOp [.newPage, .add shortArgs, .newPage] d₀ = (.ok [(), (), ()], d) ∧ NeverOverstates d := by
  have hschema : schemaPage textColumns = .ok textSchema := rfl
  obtain ⟨d₀, hcreate, hcreated⟩ := createTable_of_schema blankMemory hschema
  have hnew := newHeapPage_ok hcreated.directory
  obtain ⟨-, -, htable⟩ := TablePage.of_newHeapPage hcreated.directory hcreated.page0 hcreated.page1 hnew
  have hfits : Fits d₀.withNewPage shortArgs := by
    refine ⟨textSchema, _, htable.page1, withNewPage_file_two d₀, rfl, ?_⟩
    rw [newHeapPageBuf, extractHeader_construct]
    decide
  obtain ⟨ptr, d₁, hadd, htable₁, -⟩ := htable.addTuple hfits
  obtain ⟨free, hdir⟩ := htable₁.directory
  have hrun : Prog.runAll heapOp [.newPage, .add shortArgs, .newPage] d₀ =
      (.ok [(), (), ()], d₁.withNewPage) := by
    refine Prog.runAll_cons_ok (show heapOp .newPage d₀ = (.ok (), d₀.withNewPage) from ?_)
      (Prog.runAll_cons_ok (show heapOp (.add shortArgs) d₀.withNewPage = (.ok (), d₁) from ?_)
        (Prog.runAll_cons_ok (show heapOp .newPage d₁ = (.ok (), d₁.withNewPage) from ?_) rfl))
    · rw [heapOp, Prog.bind_ok hnew]
      rfl
    · rw [heapOp, Prog.bind_ok hadd]
      rfl
    · rw [heapOp, Prog.bind_ok (newHeapPage_ok hdir)]
      rfl
  refine ⟨d₀, _, hcreate, hrun, ((heap_run_neverOverstates hcreate hschema (by simp) hrun).mpr ?_).1⟩
  intro tuples htuples
  have haccount : account textSchema ⟨0, none⟩ [.newPage, .add shortArgs, .newPage] = ⟨10, some []⟩ := rfl
  rw [haccount] at htuples ⊢
  cases htuples
  decide

/-- A new page has an entry of 4096 bytes and 4090 free ones. -/
theorem heap_run_neverOverstates_fails : ∃ d₀ d, createTable flagColumns blankMemory = (.ok (), d₀) ∧
    Prog.runAll heapOp [.newPage] d₀ = (.ok [()], d) ∧ ¬ NeverOverstates d := by
  obtain ⟨d₀, hcreate, hcreated⟩ := createTable_of_schema blankMemory schemaPage_flag
  obtain ⟨d₀', hcreate', hrun, -⟩ := newPage_state blankMemory schemaPage_flag
  rw [hcreate] at hcreate'
  cases hcreate'
  refine ⟨d₀, _, hcreate, hrun, fun hnever => ?_⟩
  have hentry : Entry d₀.withNewPage (2 : PageId).toNat 4096 :=
    (DirHolds.entry_iff hcreated.directory (Nat.le_refl 2) (by decide)).mpr rfl
  have hroom := hnever 2 _ 4096 (Nat.le_refl 2) (by decide) (withNewPage_file_two d₀) hentry 4096 (Nat.le_refl _)
  rw [newHeapPageBuf, extractHeader_construct] at hroom
  exact absurd hroom (by decide)

end SomeDB
