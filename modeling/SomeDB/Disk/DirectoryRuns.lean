import SomeDB.Disk.PageDirectory

/-!
# Runs on a table: the directory and new pages

Two consequences of how pages are chosen and of where the directory is patched.

* `new_heap_page` always starts page 2 anew, so it is safe exactly as long as page 2 holds no tuple.
* `update_page_dir` writes the entry of page 2 over that of page 1, so the directories agree exactly as
  long as no tuple was added.
-/

namespace SomeDB

open Lib

/-- A program on the file that returned. -/
theorem removeTuple_file {d d' : DiskManager} {rid : RID} {u : Unit}
    (h : removeTuple rid d = (.ok u, d')) :
    ∃ page page', d.file rid.pid = some page ∧ markRemoved page rid.slotNum = .ok page' ∧
      d' = { d with file := d.file.write rid.pid page' } := by
  rw [removeTuple] at h
  cases hpage : d.file rid.pid with
  | none =>
    have hread : onFile (readPage rid.pid) d = (.error .exit, d) := by
      simp [onFile, Prog.zoom, readPage, hpage]
    rw [Prog.bind_error hread] at h
    cases h
  | some page =>
    rw [Prog.bind_ok (readFile_ok hpage)] at h
    obtain ⟨page', hmark, h⟩ := Prog.lift_bind_eq_ok h
    rw [writeFile_ok] at h
    cases h
    exact ⟨page, page', rfl, hmark, rfl⟩

theorem removeTuple_ok {d : DiskManager} {rid : RID} {page page' : Page} (hpage : d.file rid.pid = some page)
    (hmark : markRemoved page rid.slotNum = .ok page') :
    removeTuple rid d = (.ok (), { d with file := d.file.write rid.pid page' }) := by
  rw [removeTuple, Prog.bind_ok (readFile_ok hpage), hmark, Prog.lift_ok_bind, writeFile_ok]

/-! ## New pages -/

/-- The tuple `rid` is in its page and was not removed. -/
def LiveTuple (d : DiskManager) (rid : RID) : Prop :=
  2 ≤ rid.pid.toNat ∧ ∃ page, d.file rid.pid = some page ∧
    5 + 4 * (rid.slotNum.toNat + 1) ≤ (extractHeader page).freeStart.toNat ∧
    slotOffset page rid.slotNum.toNat ≠ 0

/-- Page `p` holds at least one tuple. -/
def HoldsTuple (d : DiskManager) (p : PageId) : Prop := ∃ slotNum, LiveTuple d ⟨p, slotNum⟩

/-- `new_heap_page` destroys no data: the pages with tuples keep their bytes, the tuples can still be
read, and 0 is returned if no page has `PAGE_SIZE` free bytes. -/
def NewPageSafe (d : DiskManager) : Prop :=
  ∀ pid d', newHeapPage d = (.ok pid, d') →
    (∀ p, HoldsTuple d p → d'.file p = d.file p) ∧
    (∀ rid, LiveTuple d rid → (getTuple rid d').1 = (getTuple rid d).1) ∧
    ((∀ p, 2 ≤ p → p < 500 → ∀ el ht, hashFind true (sprintfU p) d.pageDirectory = (.ok (some el), ht) →
      el.data.value ≠ 4096) → pid = 0)

/-- Everything that `get_tuple` reads is in the page. -/
theorem getTuple_congr {d d' : DiskManager} {rid : RID} (h : d'.file rid.pid = d.file rid.pid) :
    (getTuple rid d').1 = (getTuple rid d).1 := by
  cases hpage : d.file rid.pid with
  | none =>
    have hread : ∀ {e : DiskManager}, e.file rid.pid = none →
        onFile (readPage rid.pid) e = (.error .exit, e) := by
      intro e he
      simp [onFile, Prog.zoom, readPage, he]
    rw [getTuple, Prog.bind_error (hread hpage), Prog.bind_error (hread (h.trans hpage))]
  | some page =>
    rw [getTuple, Prog.bind_ok (readFile_ok hpage), Prog.bind_ok (readFile_ok (h.trans hpage))]
    cases extractTuplePtr page rid.slotNum with
    | error e => rfl
    | ok ptr =>
      rw [Prog.lift_ok_bind, Prog.lift_ok_bind]
      split <;> rfl

theorem newPageSafe_iff {d : DiskManager} {free : Nat → UInt16} (h : DirHolds d.pageDirectory free)
    (hfree : free 3 = 4096) : NewPageSafe d ↔ ¬ HoldsTuple d 2 := by
  constructor
  · rintro hsafe ⟨slotNum, hlive⟩
    have hkeep := (hsafe _ _ (newHeapPage_ok h)).1 2 ⟨slotNum, hlive⟩
    obtain ⟨-, page, hpage, hslot, -⟩ := hlive
    rw [withNewPage_file_two, show d.file 2 = some page from hpage] at hkeep
    -- the new header has no slots
    rw [← Option.some.inj hkeep, newHeapPageBuf, extractHeader_construct] at hslot
    simp only [UInt16.reduceToNat] at hslot
    omega
  · intro hno pid d' hrun
    rw [newHeapPage_ok h] at hrun
    cases hrun
    have hkeep : ∀ p, HoldsTuple d p → d.withNewPage.file p = d.file p := by
      intro p hp
      refine withNewPage_file_ne d ?_
      rintro rfl
      exact hno hp
    refine ⟨hkeep, fun rid hlive => getTuple_congr (hkeep rid.pid ⟨rid.slotNum, hlive⟩), fun hall => ?_⟩
    obtain ⟨c, hc, hval⟩ := h.find (show 2 ≤ 3 by omega) (by omega)
    exact absurd (hval.trans hfree) (hall 3 (by omega) (by omega) _ _ hc)

/-- A tuple of a page that is not removed is live. -/
theorem Holds.liveTuple {d : DiskManager} {page : Page} {slots : List Slot} {i : Nat} {s : Slot}
    (h : Holds page slots) (hpage : d.file 2 = some page) (hi : slots[i]? = some s)
    (hs : s.removed = false) : LiveTuple d ⟨2, UInt32.ofNat i⟩ := by
  have hlt := (List.getElem?_eq_some_iff.mp hi).1
  have hroom := h.room
  have hend := h.freeEnd
  have hrange := (h.tuple_range hi).1
  have hnat : (UInt32.ofNat i).toNat = i := by
    rw [UInt32.toNat_ofNat', Nat.mod_eq_of_lt (by omega)]
  refine ⟨Nat.le_refl 2, page, hpage, ?_, ?_⟩
  · rw [h.freeStart, hnat]
    omega
  · simp only [hnat, h.offset i s hi, hs]
    simp only [Bool.false_eq_true, if_false]
    omega

/-- A page whose tuples are all removed holds none. -/
theorem Holds.not_holdsTuple {d : DiskManager} {page : Page} {slots : List Slot} (h : Holds page slots)
    (hpage : d.file 2 = some page) (hall : ∀ s ∈ slots, s.removed = true) : ¬ HoldsTuple d 2 := by
  rintro ⟨slotNum, -, page', hpage', hslot, hlive⟩
  cases hpage.symm.trans hpage'
  have hstart := h.freeStart
  have hlt : slotNum.toNat < slots.length := by
    simp only at hslot
    omega
  refine hlive ?_
  simp only [h.offset _ _ (List.getElem?_eq_getElem hlt), hall _ (List.getElem_mem hlt), if_true]

/-- The counters of the pages behind page 2 never change. -/
theorem heap_run_directory {columns : Columns} {mem d₀ d : DiskManager} {u : Unit}
    (hcreate : createTable columns mem = (.ok u, d₀)) {ops : List HeapOp} {rs : List Unit}
    (hrun : Prog.runAll heapOp ops d₀ = (.ok rs, d)) :
    ∃ free, DirHolds d.pageDirectory free ∧ free 3 = 4096 ∧ (∃ dir, d.file 0 = some dir) ∧
      ∃ schema, d.file 1 = some schema := by
  obtain ⟨schema, -, hcreated⟩ := createTable_eq_ok hcreate
  have hmeets : Prog.Meets heapOp (fun _ _ => True) ops d₀ := Prog.meets_of_forall (fun _ _ => trivial) _
  refine Prog.runAll_inv_of_ok (fun _ d => ∃ free, DirHolds d.pageDirectory free ∧ free 3 = 4096 ∧
    (∃ dir, d.file 0 = some dir) ∧ ∃ schema, d.file 1 = some schema) ?_
    ⟨_, hcreated.directory, rfl, ⟨_, hcreated.page0⟩, _, hcreated.page1⟩ hmeets hrun
  rintro is d op b d' ⟨free, hdir, hfree, ⟨dir, h0⟩, schema, h1⟩ - hstep
  cases op with
  | newPage =>
    rw [heapOp, Prog.bind_ok (newHeapPage_ok hdir)] at hstep
    cases hstep
    exact ⟨free, hdir, hfree, ⟨dir, (withNewPage_file_ne d (by decide)).trans h0⟩, schema,
      (withNewPage_file_ne d (by decide)).trans h1⟩
  | add args =>
    rw [heapOp] at hstep
    obtain ⟨r, d₁, hadd, hstep⟩ := Prog.bind_eq_ok hstep
    cases hstep
    obtain ⟨page, -, ⟨-, -, rfl⟩ | ⟨page', ptr, -, -, -, -, hdir', hfile⟩⟩ :=
      addTuple_cases hdir h0 h1 hadd
    · exact ⟨free, hdir, hfree, ⟨dir, h0⟩, schema, h1⟩
    · refine ⟨_, hdir', by simpa using hfree, ⟨_, by rw [hfile]; exact Disk.write_same ..⟩, schema, ?_⟩
      rw [hfile, Disk.write_ne _ _ (by decide), Disk.write_ne _ _ (by decide), h1]
  | remove rid =>
    obtain ⟨page, page', hpage, -, rfl⟩ := removeTuple_file hstep
    have hsome : ∀ q page₀, d.file q = some page₀ →
        ∃ page₁, (d.file.write rid.pid page') q = some page₁ := by
      intro q page₀ hq
      by_cases hqr : q = rid.pid
      · exact ⟨page', by rw [hqr]; exact Disk.write_same ..⟩
      · exact ⟨page₀, by rw [Disk.write_ne _ _ hqr, hq]⟩
    exact ⟨free, hdir, hfree, hsome 0 dir h0, hsome 1 schema h1⟩

/-- A new table with one tuple in a new page. -/
theorem newPage_add_run {columns : Columns} {schema : Page} {args : AddTupleArgs} (mem : DiskManager)
    (hschema : schemaPage columns = .ok schema) (hvalid : validate schema args = .ok true)
    (hfit : (tupleBytes args).length ≤ 4086) :
    ∃ d₀ d, createTable columns mem = (.ok (), d₀) ∧
      Prog.runAll heapOp [.newPage, .add args] d₀ = (.ok [(), ()], d) ∧
      (∃ page, d.file 2 = some page ∧ Holds page [⟨tupleBytes args, false⟩]) ∧
      (∃ free, DirHolds d.pageDirectory free ∧ free 3 = 4096) ∧
      ∃ f, d.file 0 = some (directoryPage.blit 4 (dirEntry 2 f)) := by
  obtain ⟨d₀, hcreate, hcreated⟩ := createTable_of_schema mem hschema
  have hsize : (tupleBytes args).length = (tupleSize args).toNat := by
    rw [tupleSize_toNat, Nat.mod_eq_of_lt (by omega)]
  obtain ⟨hstore, hholds⟩ := (holds_new (d₀.junk 0)).storeTuple hsize (by
    simp only [List.length_nil, used, List.map_nil, List.sum_nil]
    omega)
  obtain ⟨d, hadd, hdir, hfile⟩ := addTuple_ok (d := d₀.withNewPage)
    hcreated.directory ((withNewPage_file_ne d₀ (by decide)).trans hcreated.page0)
    ((withNewPage_file_ne d₀ (by decide)).trans hcreated.page1) (withNewPage_file_two d₀) hvalid
    (by omega) hstore
  refine ⟨d₀, d, hcreate, ?_, ⟨_, ?_, hholds⟩, ⟨_, hdir, rfl⟩,
    4096 - tupleSize args, ?_⟩
  · have hnew : heapOp .newPage d₀ = (.ok (), d₀.withNewPage) := by
      rw [heapOp, Prog.bind_ok (newHeapPage_ok hcreated.directory)]
      rfl
    have hadd' : heapOp (.add args) d₀.withNewPage = (.ok (), d) := by
      rw [heapOp, Prog.bind_ok hadd]
      rfl
    exact Prog.runAll_cons_ok hnew (Prog.runAll_cons_ok hadd' rfl)
  · rw [hfile, Disk.write_ne _ _ (by decide), Disk.write_same]
  · rw [hfile, Disk.write_same]

/-- A table with one column `f`, and a tuple for it. -/
def flagColumns : Columns := ⟨[⟨[102], .boolean, by decide⟩], by decide⟩
def flagArgs : AddTupleArgs := ⟨[([102], .boolean 1)], by decide⟩

def flagSchema : Page := (Block.zero.blit 0 [1]).blit 1 [1, 102, 1]

theorem schemaPage_flag : schemaPage flagColumns = .ok flagSchema := rfl

theorem validate_flag : validate flagSchema flagArgs = .ok true := by decide

/-- **New pages.** In every state of a table, `new_heap_page` destroys no data exactly if page 2 holds no
tuple. -/
theorem heap_run_newPageSafe {columns : Columns} {mem d₀ d : DiskManager} {u : Unit}
    (hcreate : createTable columns mem = (.ok u, d₀)) {ops : List HeapOp} {rs : List Unit}
    (hrun : Prog.runAll heapOp ops d₀ = (.ok rs, d)) : NewPageSafe d ↔ ¬ HoldsTuple d 2 := by
  obtain ⟨free, hdir, hfree, -⟩ := heap_run_directory hcreate hrun
  exact newPageSafe_iff hdir hfree

/-- The only tuple of the page was removed. -/
theorem heap_run_newPageSafe_removed : ∃ d₀ d, createTable flagColumns blankMemory = (.ok (), d₀) ∧
    Prog.runAll heapOp [.newPage, .add flagArgs, .remove ⟨2, 0⟩] d₀ = (.ok [(), (), ()], d) ∧ NewPageSafe d := by
  obtain ⟨d₀, d₁, hcreate, hrun, ⟨page, hpage, hholds⟩, -, -⟩ :=
    newPage_add_run blankMemory schemaPage_flag validate_flag (by decide)
  obtain ⟨page', hmark, hholds'⟩ := hholds.markRemoved (i := 0) (by simp)
  have hremove : heapOp (.remove ⟨2, 0⟩) d₁ = (.ok (), { d₁ with file := d₁.file.write 2 page' }) :=
    @removeTuple_ok d₁ ⟨2, 0⟩ page page' hpage hmark
  have hrun' := Prog.runAll_concat_ok hrun hremove
  refine ⟨d₀, _, hcreate, hrun', (heap_run_newPageSafe hcreate hrun').mpr ?_⟩
  exact hholds'.not_holdsTuple (Disk.write_same d₁.file 2 page') (by simp [dropSlot])

/-- The second call of `new_heap_page` destroys the tuple. -/
theorem heap_run_newPageSafe_fails : ∃ d₀ d, createTable flagColumns blankMemory = (.ok (), d₀) ∧
    Prog.runAll heapOp [.newPage, .add flagArgs] d₀ = (.ok [(), ()], d) ∧ ¬ NewPageSafe d := by
  obtain ⟨d₀, d, hcreate, hrun, ⟨page, hpage, hholds⟩, ⟨free, hdir, hfree⟩, -⟩ :=
    newPage_add_run blankMemory schemaPage_flag validate_flag (by decide)
  refine ⟨d₀, d, hcreate, hrun, fun hsafe => ?_⟩
  exact (newPageSafe_iff hdir hfree).mp hsafe ⟨_, hholds.liveTuple (i := 0) hpage rfl rfl⟩

/-! ## The directory on disk -/

/-- The entry of page `p` in the directory on disk. -/
def entryAt (page : Page) (p : Nat) : UInt16 × UInt16 :=
  (decodeUint16 (page.slice (4 * p) 2), decodeUint16 (page.slice (4 * p + 2) 2))

/-- The directory on disk has the counters of the one in memory, and the entries of the reserved pages are
those of a new table. -/
def DirAgrees (d : DiskManager) : Prop :=
  ∃ dir, d.file 0 = some dir ∧ entryAt dir 0 = (0, 4096) ∧ entryAt dir 1 = (1, 4096) ∧
    ∀ p, 2 ≤ p → p < 500 → ∃ el ht, hashFind true (sprintfU p) d.pageDirectory = (.ok (some el), ht) ∧
      entryAt dir p = (UInt16.ofNat p, el.data.value)

@[simp] theorem dirEntry_length (p : Nat) (f : UInt16) : (dirEntry p f).length = 4 := rfl

theorem entryAt_blit (page : Page) {p : Nat} (q : Nat) (f : UInt16) (hp : p < 500) :
    entryAt (page.blit (4 * p) (dirEntry q f)) p = (UInt16.ofNat q, f) := by
  have hall : (page.blit (4 * p) (dirEntry q f)).slice (4 * p) 4 = dirEntry q f :=
    Block.slice_blit_of_length _ rfl (by omega)
  rw [show (4 : Nat) = 2 + 2 from rfl, Block.slice_add, dirEntry] at hall
  obtain ⟨h₁, h₂⟩ := List.append_inj hall (by simp)
  rw [entryAt, dirEntry, h₁, h₂, decodeUint16_encodeUint16, decodeUint16_encodeUint16]

theorem entryAt_blit_ne (page : Page) {p r : Nat} (q : Nat) (f : UInt16) (h : p ≠ r) :
    entryAt (page.blit (4 * r) (dirEntry q f)) p = entryAt page p := by
  rw [entryAt, entryAt, Block.slice_blit_disjoint _ (by simp only [dirEntry_length]; omega),
    Block.slice_blit_disjoint _ (by simp only [dirEntry_length]; omega)]

theorem entryAt_directoryPage {p : Nat} (hp : p < 500) :
    entryAt directoryPage p = (UInt16.ofNat p, 4096) := by
  -- by induction on the number of entries that are written
  have h : ∀ k ≤ 500, ∀ p < k,
      entryAt ((List.range k).foldl (fun page pid => page.blit (pid * 4) (dirEntry pid 4096))
        Block.zero) p = (UInt16.ofNat p, 4096) := by
    intro k
    induction k with
    | zero => intro _ p hp; omega
    | succ k ih =>
      intro hk p hp
      rw [List.range_succ, List.foldl_append, List.foldl_cons, List.foldl_nil, Nat.mul_comm k 4]
      by_cases hpk : p = k
      · subst hpk
        exact entryAt_blit _ p _ (by omega)
      · rw [entryAt_blit_ne _ k _ hpk]
        exact ih (by omega) p (by omega)
  exact h 500 (Nat.le_refl _) p hp

/-- The state of a table to which no tuple was added. -/
structure Untouched (schema : Page) (d : DiskManager) : Prop where
  directory : DirHolds d.pageDirectory fun _ => 4096
  page0 : d.file 0 = some directoryPage
  page1 : d.file 1 = some schema

theorem Untouched.dirAgrees {schema : Page} {d : DiskManager} (h : Untouched schema d) : DirAgrees d := by
  refine ⟨directoryPage, h.page0, entryAt_directoryPage (by omega), entryAt_directoryPage (by omega), ?_⟩
  intro p h2 hp
  obtain ⟨c, hc, hval⟩ := h.directory.find h2 hp
  exact ⟨_, _, hc, by rw [entryAt_directoryPage hp, hval]⟩

/-- The state of a table to which a tuple was added: the entry of page 2 stands in the place of page 1. -/
structure Patched (schema : Page) (d : DiskManager) : Prop where
  directory : ∃ free, DirHolds d.pageDirectory free
  page0 : ∃ dir, d.file 0 = some dir ∧ (entryAt dir 1).1 = 2
  page1 : d.file 1 = some schema

theorem Patched.not_dirAgrees {schema : Page} {d : DiskManager} (h : Patched schema d) :
    ¬ DirAgrees d := by
  rintro ⟨dir', h0', -, h1, -⟩
  obtain ⟨dir, h0, h2⟩ := h.page0
  rw [h0] at h0'
  rw [Option.some.inj h0', h1] at h2
  exact absurd h2 (by decide)

/-- An added tuple is entered for page 1. -/
theorem patched_of_add {schema page' dir : Page} {d d' : DiskManager} {free : Nat → UInt16} {f : UInt16}
    (h1 : d.file 1 = some schema) (hdir : DirHolds d'.pageDirectory free)
    (hfile : d'.file = (d.file.write 2 page').write 0 (dir.blit 4 (dirEntry 2 f))) :
    Patched schema d' := by
  refine ⟨⟨free, hdir⟩, ⟨_, by rw [hfile]; exact Disk.write_same .., ?_⟩, ?_⟩
  · exact congrArg Prod.fst (entryAt_blit dir (p := 1) 2 f (by omega))
  · rw [hfile, Disk.write_ne _ _ (by decide), Disk.write_ne _ _ (by decide), h1]

/-- **The directory on disk.** In every run of `new_heap_page` and `add_tuple` on a new table, the two
directories agree exactly if no tuple conformed to the schema. -/
theorem heap_run_dirAgrees {columns : Columns} {schema : Page} {mem d₀ d : DiskManager} {u : Unit}
    (hcreate : createTable columns mem = (.ok u, d₀)) (hschema : schemaPage columns = .ok schema)
    {ops : List HeapOp} (hops : ∀ rid, .remove rid ∉ ops) {rs : List Unit}
    (hrun : Prog.runAll heapOp ops d₀ = (.ok rs, d)) :
    DirAgrees d ↔ ∀ args, .add args ∈ ops → validate schema args ≠ .ok true := by
  obtain ⟨schema', hschema', hcreated⟩ := createTable_eq_ok hcreate
  rw [hschema] at hschema'
  cases hschema'
  have hmeets : Prog.Meets heapOp (fun _ op => ∀ rid, op ≠ .remove rid) ops d₀ :=
    Prog.meets_of_forall (D := fun op => ∀ rid, op ≠ HeapOp.remove rid)
      (fun op hop rid he => hops rid (he ▸ hop)) _
  have hinv := Prog.runAll_inv_of_ok (fun ops d =>
    ((∀ args, .add args ∈ ops → validate schema args ≠ .ok true) ∧ Untouched schema d) ∨
    ((∃ args, .add args ∈ ops ∧ validate schema args = .ok true) ∧ Patched schema d)) ?_
    (.inl ⟨by simp, hcreated.directory, hcreated.page0, hcreated.page1⟩) hmeets hrun
  · rcases hinv with ⟨hno, hd⟩ | ⟨⟨args, hmem, hvalid⟩, hd⟩
    · exact iff_of_true hd.dirAgrees hno
    · exact iff_of_false hd.not_dirAgrees fun h => h args hmem hvalid
  intro ops d op b d' hinv hop hstep
  cases op with
  | remove rid => exact absurd rfl (hop rid)
  | newPage =>
    rcases hinv with ⟨hno, hd⟩ | ⟨⟨args, hmem, hvalid⟩, hd⟩
    · rw [heapOp, Prog.bind_ok (newHeapPage_ok hd.directory)] at hstep
      cases hstep
      exact .inl ⟨by simpa using hno, hd.directory, (withNewPage_file_ne d (by decide)).trans hd.page0,
        (withNewPage_file_ne d (by decide)).trans hd.page1⟩
    · obtain ⟨free, hdir⟩ := hd.directory
      obtain ⟨dir, h0, h2⟩ := hd.page0
      rw [heapOp, Prog.bind_ok (newHeapPage_ok hdir)] at hstep
      cases hstep
      exact .inr ⟨⟨args, List.mem_append_left _ hmem, hvalid⟩, ⟨free, hdir⟩,
        ⟨dir, (withNewPage_file_ne d (by decide)).trans h0, h2⟩, (withNewPage_file_ne d (by decide)).trans hd.page1⟩
  | add args =>
    rw [heapOp] at hstep
    obtain ⟨r, d₁, hadd, hstep⟩ := Prog.bind_eq_ok hstep
    cases hstep
    rcases hinv with ⟨hno, hd⟩ | ⟨⟨args', hmem, hvalid⟩, hd⟩
    · obtain ⟨page, -, ⟨hvalid, -, rfl⟩ | ⟨page', ptr, hvalid, -, -, -, hdir', hfile⟩⟩ :=
        addTuple_cases hd.directory hd.page0 hd.page1 hadd
      · refine .inl ⟨fun a ha => ?_, hd⟩
        rcases List.mem_append.mp ha with ha | ha
        · exact hno a ha
        · obtain rfl : a = args := by simpa using ha
          rw [hvalid]
          decide
      · exact .inr ⟨⟨args, by simp, hvalid⟩, patched_of_add hd.page1 hdir' hfile⟩
    · obtain ⟨free, hdir⟩ := hd.directory
      obtain ⟨dir, h0, h2⟩ := hd.page0
      refine .inr ⟨⟨args', List.mem_append_left _ hmem, hvalid⟩, ?_⟩
      obtain ⟨page, -, ⟨-, -, rfl⟩ | ⟨page', ptr, -, -, -, -, hdir', hfile⟩⟩ :=
        addTuple_cases hdir h0 hd.page1 hadd
      · exact hd
      · exact patched_of_add hd.page1 hdir' hfile

theorem heap_run_dirAgrees_newPage : ∃ d₀ d, createTable flagColumns blankMemory = (.ok (), d₀) ∧
    Prog.runAll heapOp [.newPage] d₀ = (.ok [()], d) ∧ DirAgrees d := by
  obtain ⟨d₀, hcreate, hcreated⟩ := createTable_of_schema blankMemory schemaPage_flag
  have hrun : Prog.runAll heapOp [.newPage] d₀ = (.ok [()], d₀.withNewPage) := by
    refine Prog.runAll_cons_ok ?_ rfl
    rw [heapOp, Prog.bind_ok (newHeapPage_ok hcreated.directory)]
    rfl
  exact ⟨d₀, _, hcreate, hrun,
    (heap_run_dirAgrees hcreate schemaPage_flag (by simp) hrun).mpr (by simp)⟩

/-- The first tuple makes the directories differ. -/
theorem heap_run_dirAgrees_fails : ∃ d₀ d, createTable flagColumns blankMemory = (.ok (), d₀) ∧
    Prog.runAll heapOp [.newPage, .add flagArgs] d₀ = (.ok [(), ()], d) ∧ ¬ DirAgrees d := by
  obtain ⟨d₀, d, hcreate, hrun, -, -, f, h0⟩ :=
    newPage_add_run blankMemory schemaPage_flag validate_flag (by decide)
  refine ⟨d₀, d, hcreate, hrun, ?_⟩
  rintro ⟨dir, h0', -, h1, -⟩
  rw [h0] at h0'
  rw [← Option.some.inj h0', entryAt_blit directoryPage (p := 1) 2 f (by omega)] at h1
  have h2 : (2 : UInt16) = 1 := congrArg Prod.fst h1
  exact absurd h2 (by decide)

end SomeDB
