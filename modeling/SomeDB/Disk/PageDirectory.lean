import SomeDB.Disk.SlottedPage

/-!
# The page directory

`DirHolds ht free`: the directory in memory has one counter for each user page, and that of page `p`
is `free p`. Every user page has a pointer in the directory, and a pointer is never below a size, so
`find_spacious_page` always chooses the first user page (`findSpaciousPage_first`).
-/

namespace SomeDB

open Lib

/-- The directory maps the user pages, and no others, to counters with the values `free`. -/
def DirHolds (ht : HashTable FreeSpace) (free : Nat → UInt16) : Prop :=
  ∃ m, ht.Refines 500 m ∧
    (∀ k, (m k).isSome = true → ∃ p, 2 ≤ p ∧ p < 500 ∧ k = sprintfU p) ∧
    ∀ p, 2 ≤ p → p < 500 → ∃ c, m (sprintfU p) = some c ∧ c.value = free p

theorem atoi_pid {p : Nat} (h : p < 500) : 0 ≤ atoi (sprintfU p) := by
  rw [atoi_sprintfU (by omega)]
  omega

theorem hash_pid {ht : HashTable FreeSpace} {m : CString → Option FreeSpace} (h : ht.Refines 500 m)
    {p : Nat} (hp : p < 500) : hash (sprintfU p) ht = .ok p := by
  have hsize : ¬ ht.size = 0 := by
    intro h0
    have := h.size
    rw [h0] at this
    simp at this
  rw [hash, if_neg hsize, h.size, atoi_sprintfU (by omega),
    Int.tmod_eq_of_lt (by omega) (by omega)]
  congr 1
  omega

namespace DirHolds

variable {ht : HashTable FreeSpace} {free : Nat → UInt16} {p : Nat}

theorem find (h : DirHolds ht free) (h2 : 2 ≤ p) (hp : p < 500) :
    ∃ c, hashFind true (sprintfU p) ht = (.ok (some ⟨sprintfU p, c, false⟩), ht) ∧ c.value = free p := by
  obtain ⟨m, href, -, hfree⟩ := h
  obtain ⟨c, hc, hval⟩ := hfree p h2 hp
  refine ⟨c, ?_, hval⟩
  rw [href.hashFind_ok (atoi_pid hp) true, hc]
  rfl

/-- The counter of a page is taken out and another one put in. -/
theorem replace (h : DirHolds ht free) (h2 : 2 ≤ p) (hp : p < 500) (c : FreeSpace) :
    ∃ r ht₁ ht₂, hashRemove true (sprintfU p) ht = (.ok r, ht₁) ∧
      hashInsert true (sprintfU p) c ht₁ = (.ok (), ht₂) ∧
      DirHolds ht₂ fun q => if q = p then c.value else free q := by
  obtain ⟨m, href, honly, hfree⟩ := h
  -- pages below 500 have different buckets
  have halone : ∀ k, (m k).isSome = true → hash k ht = hash (sprintfU p) ht → k = sprintfU p := by
    intro k hk heq
    obtain ⟨q, -, hq, rfl⟩ := honly k hk
    rw [hash_pid href hq, hash_pid href hp] at heq
    rw [Except.ok.inj heq]
  obtain ⟨r, ht₁, hr, href₁, -⟩ := href.hashRemove_ok (atoi_pid hp) true fun _ => halone
  obtain ⟨ht₂, hr₂, href₂⟩ := href₁.hashInsert_ok (atoi_pid hp) true c
  refine ⟨r, ht₁, ht₂, hr, hr₂, _, href₂, ?_, ?_⟩
  · intro k hk
    rw [updateMap, updateMap] at hk
    by_cases hkp : k = sprintfU p
    · exact ⟨p, h2, hp, hkp⟩
    · simp only [if_neg hkp] at hk
      exact honly k hk
  · intro q hq2 hq
    simp only [updateMap]
    by_cases hqp : q = p
    · subst hqp
      exact ⟨c, by simp, by simp⟩
    · have hne : ¬ sprintfU q = sprintfU p := fun he => hqp (sprintfU_inj he)
      simpa only [if_neg hne, if_neg hqp] using hfree q hq2 hq

end DirHolds

/-! ## The programs on the directory and on the file -/

section Programs

variable {d : DiskManager} {free : Nat → UInt16}

theorem onDirectory_ok {α : Type} {p : HashM FreeSpace α} {a : α} {ht : HashTable FreeSpace}
    (h : p d.pageDirectory = (.ok a, ht)) :
    onDirectory p d = (.ok a, { d with pageDirectory := ht }) := by
  rw [onDirectory, Prog.zoom_ok h]

theorem onFile_ok {α : Type} {p : Prog Fault Disk α} {a : α} {file : Disk} (h : p d.file = (.ok a, file)) :
    onFile p d = (.ok a, { d with file := file }) := by
  rw [onFile, Prog.zoom_ok h]

theorem readFile_ok {pid : PageId} {page : Page} (h : d.file pid = some page) :
    onFile (readPage pid) d = (.ok page, d) :=
  onFile_ok (by rw [readPage, h])

theorem writeFile_ok (pid : PageId) (page : Page) :
    onFile (writePage pid page) d = (.ok (), { d with file := d.file.write pid page }) :=
  onFile_ok rfl

/-- Whatever the size, the first user page is chosen. -/
theorem findSpaciousPage_first (h : DirHolds d.pageDirectory free) (size : UInt16) :
    findSpaciousPage size userPages d = (.ok (some 2), d) := by
  obtain ⟨c, hc, -⟩ := h.find (Nat.le_refl 2) (by omega)
  have hptr : size.toNat ≤ c.ptr.1 := Nat.le_trans (Nat.le_of_lt size.toNat_lt) c.ptr.2
  have huser : userPages = 2 :: List.range' 3 497 := rfl
  rw [huser, findSpaciousPage, Prog.bind_ok (onDirectory_ok hc)]
  simp only [if_pos hptr]
  rfl

/-- The state with page 2 started anew. -/
def DiskManager.withNewPage (d : DiskManager) : DiskManager :=
  { d with junk := fun n => d.junk (n + 1), file := d.file.write 2 (newHeapPageBuf (d.junk 0)) }

@[simp] theorem withNewPage_pageDirectory (d : DiskManager) :
    d.withNewPage.pageDirectory = d.pageDirectory := rfl

theorem withNewPage_file_two (d : DiskManager) :
    d.withNewPage.file 2 = some (newHeapPageBuf (d.junk 0)) := Disk.write_same d.file 2 _

theorem withNewPage_file_ne (d : DiskManager) {q : PageId} (h : q ≠ 2) :
    d.withNewPage.file q = d.file q := Disk.write_ne d.file _ h

/-- `new_heap_page` starts page 2 anew. -/
theorem newHeapPage_ok (h : DirHolds d.pageDirectory free) :
    newHeapPage d = (.ok 2, d.withNewPage) := by
  have hdir : DirHolds ({ d with junk := fun n => d.junk (n + 1) } : DiskManager).pageDirectory free := h
  rw [newHeapPage, Prog.bind_ok (findSpaciousPage_first hdir 4096)]
  simp only
  rw [Prog.bind_ok (writeFile_ok _ _)]
  rfl

/-- `update_page_dir` for page 2: the counter in memory, and four bytes of page 0. -/
theorem updatePageDir_ok (h : DirHolds d.pageDirectory free) {dir : Page} (hdir : d.file 0 = some dir)
    (size : UInt16) :
    ∃ d', updatePageDir 2 size d = (.ok (), d') ∧
      DirHolds d'.pageDirectory (fun q => if q = 2 then free 2 - size else free q) ∧
      d'.file = d.file.write 0 (dir.blit 4 (dirEntry 2 (free 2 - size))) ∧ d'.junk = d.junk := by
  obtain ⟨c, hc, hval⟩ := h.find (Nat.le_refl 2) (by omega)
  obtain ⟨r, ht₁, ht₂, hr₁, hr₂, hdir₂⟩ := h.replace (Nat.le_refl 2) (by omega)
    ⟨d.mallocs 0, c.value - size⟩
  have hfree : c.value - size = free 2 - size := by rw [hval]
  rw [updatePageDir, Prog.bind_ok (onDirectory_ok hc)]
  simp only [deref, Bool.false_eq_true, if_false, Prog.lift_ok_bind]
  rw [Prog.bind_ok (onDirectory_ok (by exact hr₁))]
  have hnew : newFreeSpace (c.value - size) { d with pageDirectory := ht₁ } =
      (.ok ⟨d.mallocs 0, c.value - size⟩,
        { d with pageDirectory := ht₁, mallocs := fun n => d.mallocs (n + 1) }) := rfl
  rw [Prog.bind_ok hnew, Prog.bind_ok (onDirectory_ok (by exact hr₂)),
    Prog.bind_ok (readFile_ok (by exact hdir)), writeFile_ok]
  refine ⟨_, rfl, ?_, ?_, rfl⟩
  · simpa only [hfree] using hdir₂
  · simp only [hfree]
    rfl

end Programs

/-! ## Creating a table -/

/-- Counters for the pages `pids` are put into the directory. -/
theorem fillDirectory_ok (pids : List Nat) (hpids : ∀ p ∈ pids, 2 ≤ p ∧ p < 500) (d : DiskManager)
    {m : CString → Option FreeSpace} (href : d.pageDirectory.Refines 500 m)
    (honly : ∀ k, (m k).isSome = true → ∃ p, 2 ≤ p ∧ p < 500 ∧ k = sprintfU p)
    (hval : ∀ k c, m k = some c → c.value = 4096) :
    ∃ d' m', fillDirectory pids d = (.ok (), d') ∧ d'.pageDirectory.Refines 500 m' ∧
      (∀ k, (m' k).isSome = true → ∃ p, 2 ≤ p ∧ p < 500 ∧ k = sprintfU p) ∧
      (∀ k c, m' k = some c → c.value = 4096) ∧ (∀ k, (m k).isSome = true → (m' k).isSome = true) ∧
      (∀ p ∈ pids, (m' (sprintfU p)).isSome = true) ∧ d'.file = d.file ∧ d'.junk = d.junk := by
  induction pids generalizing d m with
  | nil => exact ⟨d, m, rfl, href, honly, hval, fun _ => id, by simp, rfl, rfl⟩
  | cons p pids ih =>
    obtain ⟨h2, hp⟩ := hpids p (List.mem_cons_self ..)
    obtain ⟨ht', hr, href'⟩ := href.hashInsert_ok (atoi_pid hp) true ⟨d.mallocs 0, 4096⟩
    have hnew : newFreeSpace 4096 d =
        (.ok ⟨d.mallocs 0, 4096⟩, { d with mallocs := fun n => d.mallocs (n + 1) }) := rfl
    obtain ⟨d', m', hrun, h₁, h₂, h₃, h₄, h₅, h₆, h₇⟩ := ih
      (fun q hq => hpids q (List.mem_cons_of_mem _ hq))
      { d with mallocs := fun n => d.mallocs (n + 1), pageDirectory := ht' } href' (fun k hk => by
        rw [updateMap] at hk
        by_cases hkp : k = sprintfU p
        · exact ⟨p, h2, hp, hkp⟩
        · rw [if_neg hkp] at hk
          exact honly k hk) (fun k c hc => by
        rw [updateMap] at hc
        by_cases hkp : k = sprintfU p
        · rw [if_pos hkp] at hc
          cases hc
          rfl
        · rw [if_neg hkp] at hc
          exact hval k c hc)
    refine ⟨d', m', ?_, h₁, h₂, h₃, fun k hk => h₄ k ?_, fun q hq => ?_, h₆, h₇⟩
    · rw [fillDirectory, Prog.bind_ok hnew, Prog.bind_ok (onDirectory_ok (by exact hr))]
      exact hrun
    · rw [updateMap]
      split
      · rfl
      · exact hk
    · rcases List.mem_cons.mp hq with rfl | hq
      · exact h₄ _ (by rw [updateMap, if_pos rfl]; rfl)
      · exact h₅ q hq

theorem mem_userPages {p : Nat} : p ∈ userPages ↔ 2 ≤ p ∧ p < 500 := by
  rw [userPages, List.mem_range'_1]
  simp only [START_USER_PAGE, MAX_PAGES]

/-- The file and the directory that `create_table` leaves. -/
structure Created (schema : Page) (d : DiskManager) : Prop where
  directory : DirHolds d.pageDirectory fun _ => 4096
  page0 : d.file 0 = some directoryPage
  page1 : d.file 1 = some schema
  rest : ∀ p, p ≠ 0 → p ≠ 1 → d.file p = none

theorem fillTable_ok {columns : Columns} {schema : Page} {d : DiskManager}
    (href : d.pageDirectory.Refines 500 fun _ => none) (hfile : ∀ p, d.file p = none)
    (hschema : schemaPage columns = .ok schema) :
    ∃ d', fillTable columns d = (.ok (), d') ∧ Created schema d' := by
  obtain ⟨d₁, m, hrun, href₁, honly, hval, -, hall, hfile₁, -⟩ := fillDirectory_ok userPages
    (fun p hp => mem_userPages.mp hp) d href (fun k hk => by cases hk) (fun k c hc => by cases hc)
  refine ⟨{ d₁ with file := (d₁.file.write 0 directoryPage).write 1 schema }, ?_,
    ⟨m, href₁, honly, fun p h2 hp => ?_⟩, ?_, Disk.write_same (d₁.file.write 0 directoryPage) 1 schema, ?_⟩
  · rw [fillTable, Prog.bind_ok hrun, Prog.bind_ok (writeFile_ok (d := d₁) 0 directoryPage), hschema,
      Prog.lift_ok_bind, writeFile_ok]
  · obtain ⟨c, hc⟩ := Option.isSome_iff_exists.mp (hall p (mem_userPages.mpr ⟨h2, hp⟩))
    exact ⟨c, hc, hval _ c hc⟩
  · show (d₁.file.write 0 directoryPage).write 1 schema 0 = _
    rw [Disk.write_ne _ _ (by decide), Disk.write_same]
  · intro p h0 h1
    show (d₁.file.write 0 directoryPage).write 1 schema p = _
    rw [Disk.write_ne _ _ h1, Disk.write_ne _ _ h0, hfile₁, hfile]

theorem fillTable_eq_ok {columns : Columns} {d d' : DiskManager} {u : Unit}
    (href : d.pageDirectory.Refines 500 fun _ => none) (hfile : ∀ p, d.file p = none)
    (hrun : fillTable columns d = (.ok u, d')) :
    ∃ schema, schemaPage columns = .ok schema ∧ Created schema d' := by
  cases hschema : schemaPage columns with
  | ok schema =>
    obtain ⟨d'', hrun', hcreated⟩ := fillTable_ok href hfile hschema
    rw [hrun] at hrun'
    cases hrun'
    exact ⟨schema, rfl, hcreated⟩
  | error e =>
    rw [fillTable] at hrun
    obtain ⟨_, d₁, -, hrun⟩ := Prog.bind_eq_ok hrun
    obtain ⟨_, d₂, -, hrun⟩ := Prog.bind_eq_ok hrun
    obtain ⟨_, he, -⟩ := Prog.lift_bind_eq_ok hrun
    rw [hschema] at he
    cases he

theorem refines_empty : (initHash FreeSpace 500).Refines 500 fun _ => none :=
  HashTable.Refines.init 500 (by decide) (by decide)

/-- A table whose schema fits in its page is created. -/
theorem createTable_of_schema {columns : Columns} {schema : Page} (mem : DiskManager)
    (hschema : schemaPage columns = .ok schema) :
    ∃ d, createTable columns mem = (.ok (), d) ∧ Created schema d :=
  fillTable_ok refines_empty (fun _ => rfl) hschema

/-- A table that was created has a schema that fits in its page. -/
theorem createTable_eq_ok {columns : Columns} {mem d : DiskManager} {u : Unit}
    (h : createTable columns mem = (.ok u, d)) :
    ∃ schema, schemaPage columns = .ok schema ∧ Created schema d :=
  fillTable_eq_ok refines_empty (fun _ => rfl) h

/-- Memory of zero bytes, in which every counter gets the same address. -/
def blankMemory : DiskManager where
  file := fun _ => none
  pageDirectory := initHash FreeSpace 500
  mallocs := fun _ => ⟨65536, HeapPtr.lowest_le⟩
  junk := fun _ => Block.zero

/-! ## Adding a tuple -/

/-- The bytes of a tuple. -/
def tupleBytes (args : AddTupleArgs) : List UInt8 := (args.1.map (·.2)).flatMap (·.bytes)

theorem ColumnValue.size_toNat (v : ColumnValue) : v.size.toNat = v.bytes.length % 65536 := by
  cases v with
  | boolean => rfl
  | integer => rfl
  | decimal b => simp [ColumnValue.size, ColumnValue.bytes]
  | string s =>
    simp only [ColumnValue.size, ColumnValue.bytes, UInt16.toNat_add, UInt16.toNat_ofNat',
      UInt16.reduceToNat, List.length_append, encodeUint16_length, List.length_take]
    omega

theorem tupleSize_toNat (args : AddTupleArgs) :
    (tupleSize args).toNat = (tupleBytes args).length % 65536 := by
  have h : ∀ (cols : List (List UInt8 × ColumnValue)) (a : UInt16),
      (cols.foldl (fun size col => size + col.2.size) a).toNat =
        (a.toNat + ((cols.map (·.2)).flatMap (·.bytes)).length) % 65536 := by
    intro cols
    induction cols with
    | nil =>
      intro a
      have := a.toNat_lt
      simp only [List.foldl_nil, List.map_nil, List.flatMap_nil, List.length_nil]
      omega
    | cons c cols ih =>
      intro a
      rw [List.foldl_cons, ih, UInt16.toNat_add, ColumnValue.size_toNat]
      simp only [List.map_cons, List.flatMap_cons, List.length_append]
      omega
  rw [tupleSize, h, tupleBytes]
  simp

/-- A tuple that was encoded within its buffer. -/
theorem encodeTuple_ok {size : Nat} {vs : List ColumnValue} {acc buf : List UInt8}
    (h : encodeTuple size vs acc = .ok buf) (hacc : acc.length ≤ size) :
    buf = acc ++ vs.flatMap (·.bytes) ∧ buf.length ≤ size := by
  induction vs generalizing acc with
  | nil => cases h; exact ⟨by simp, hacc⟩
  | cons v vs ih =>
    rw [encodeTuple] at h
    split at h
    · next hle =>
      obtain ⟨hbuf, hlen⟩ := ih h (by simpa using hle)
      exact ⟨by simpa using hbuf, hlen⟩
    · cases h

/-- A tuple of fewer bytes than a `uint16_t` counts is encoded. -/
theorem encodeTuple_of_le {size : Nat} {vs : List ColumnValue} {acc : List UInt8}
    (h : acc.length + (vs.flatMap (·.bytes)).length ≤ size) :
    encodeTuple size vs acc = .ok (acc ++ vs.flatMap (·.bytes)) := by
  induction vs generalizing acc with
  | nil => simp [encodeTuple]
  | cons v vs ih =>
    rw [List.flatMap_cons, List.length_append] at h
    rw [encodeTuple, if_pos (by omega), ih (by rw [List.length_append]; omega)]
    simp

/-- What an `add_tuple` that returned has done. -/
theorem addTuple_cases {d d' : DiskManager} {free : Nat → UInt16} {dir schema : Page}
    {args : AddTupleArgs} {r : Option TuplePtr} (h : DirHolds d.pageDirectory free)
    (hdir : d.file 0 = some dir) (hschema : d.file 1 = some schema)
    (hrun : addTuple args d = (.ok r, d')) :
    ∃ page, d.file 2 = some page ∧
      ((validate schema args = .ok false ∧ r = none ∧ d' = d) ∨
        (∃ page' ptr, validate schema args = .ok true ∧ r = some ptr ∧
          (tupleBytes args).length = (tupleSize args).toNat ∧
          storeTuple page (tupleBytes args) (tupleSize args) = .ok (page', ptr) ∧
          DirHolds d'.pageDirectory
            (fun q => if q = 2 then free 2 - tupleSize args else free q) ∧
          d'.file = (d.file.write 2 page').write 0
            (dir.blit 4 (dirEntry 2 (free 2 - tupleSize args))))) := by
  rw [addTuple] at hrun
  obtain ⟨buf, hbuf, hrun⟩ := Prog.lift_bind_eq_ok hrun
  obtain ⟨hbytes, hlen⟩ := encodeTuple_ok hbuf (Nat.zero_le _)
  have hbytes' : buf = tupleBytes args := hbytes
  have hsize : (tupleBytes args).length = (tupleSize args).toNat := by
    have := tupleSize_toNat args
    rw [hbytes'] at hlen
    omega
  rw [Prog.bind_ok (findSpaciousPage_first h _)] at hrun
  simp only at hrun
  cases hpage : d.file 2 with
  | none =>
    have hread : onFile (readPage 2) d = (.error .exit, d) := by
      simp [onFile, Prog.zoom, readPage, hpage]
    rw [show UInt32.ofNat 2 = 2 from rfl, Prog.bind_error hread] at hrun
    cases hrun
  | some page =>
    refine ⟨page, rfl, ?_⟩
    rw [show UInt32.ofNat 2 = 2 from rfl, Prog.bind_ok (readFile_ok hpage),
      Prog.bind_ok (readFile_ok hschema)] at hrun
    obtain ⟨ok, hok, hrun⟩ := Prog.lift_bind_eq_ok hrun
    cases ok with
    | false =>
      cases hrun
      exact .inl ⟨hok, rfl, rfl⟩
    | true =>
      simp only [if_true] at hrun
      obtain ⟨⟨page', ptr⟩, hstore, hrun⟩ := Prog.lift_bind_eq_ok hrun
      rw [Prog.bind_ok (writeFile_ok _ _)] at hrun
      have hdir' : (d.file.write 2 page') 0 = some dir := by
        rw [Disk.write_ne _ _ (by decide), hdir]
      obtain ⟨d₁, hr₁, hdir₁, hfile₁, -⟩ := updatePageDir_ok
        (d := { d with file := d.file.write 2 page' }) h hdir' (tupleSize args)
      rw [Prog.bind_ok hr₁] at hrun
      cases hrun
      exact .inr ⟨page', ptr, hok, rfl, hsize, hbytes' ▸ hstore, hdir₁, hfile₁⟩

theorem encodeTuple_tupleBytes {args : AddTupleArgs} (hlt : (tupleBytes args).length < 65536) :
    encodeTuple (tupleSize args).toNat (args.1.map (·.2)) [] = .ok (tupleBytes args) := by
  have hsize := tupleSize_toNat args
  refine encodeTuple_of_le ?_
  show 0 + (tupleBytes args).length ≤ _
  omega

/-- A tuple that does not conform to the schema. -/
theorem addTuple_rejects {d : DiskManager} {free : Nat → UInt16} {schema page : Page}
    {args : AddTupleArgs} (h : DirHolds d.pageDirectory free) (hschema : d.file 1 = some schema)
    (hpage : d.file 2 = some page) (hvalid : validate schema args = .ok false)
    (hlt : (tupleBytes args).length < 65536) : addTuple args d = (.ok none, d) := by
  rw [addTuple, encodeTuple_tupleBytes hlt, Prog.lift_ok_bind, Prog.bind_ok (findSpaciousPage_first h _)]
  simp only
  rw [show UInt32.ofNat 2 = 2 from rfl, Prog.bind_ok (readFile_ok hpage),
    Prog.bind_ok (readFile_ok hschema), hvalid, Prog.lift_ok_bind]
  rfl

/-- A tuple that conforms to the schema and is stored in page 2. -/
theorem addTuple_ok {d : DiskManager} {free : Nat → UInt16} {dir schema page page' : Page}
    {args : AddTupleArgs} {ptr : TuplePtr} (h : DirHolds d.pageDirectory free)
    (hdir : d.file 0 = some dir) (hschema : d.file 1 = some schema) (hpage : d.file 2 = some page)
    (hvalid : validate schema args = .ok true) (hlt : (tupleBytes args).length < 65536)
    (hstore : storeTuple page (tupleBytes args) (tupleSize args) = .ok (page', ptr)) :
    ∃ d', addTuple args d = (.ok (some ptr), d') ∧
      DirHolds d'.pageDirectory (fun q => if q = 2 then free 2 - tupleSize args else free q) ∧
      d'.file = (d.file.write 2 page').write 0
        (dir.blit 4 (dirEntry 2 (free 2 - tupleSize args))) := by
  have hdir' : (d.file.write 2 page') 0 = some dir := by
    rw [Disk.write_ne _ _ (by decide), hdir]
  obtain ⟨d', hr, hdir₁, hfile, -⟩ := updatePageDir_ok
    (d := { d with file := d.file.write 2 page' }) h hdir' (tupleSize args)
  refine ⟨d', ?_, hdir₁, hfile⟩
  rw [addTuple, encodeTuple_tupleBytes hlt, Prog.lift_ok_bind,
    Prog.bind_ok (findSpaciousPage_first h _)]
  simp only
  rw [show UInt32.ofNat 2 = 2 from rfl, Prog.bind_ok (readFile_ok hpage),
    Prog.bind_ok (readFile_ok hschema), hvalid, Prog.lift_ok_bind]
  simp only [if_true]
  rw [hstore, Prog.lift_ok_bind, Prog.bind_ok (writeFile_ok _ _), Prog.bind_ok hr]
  rfl

end SomeDB
