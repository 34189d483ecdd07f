import SomeDB.Disk.BpmDirectory

/-!
# Reading back what was written through the pool

`Client` is the pool with the data that was last written to each page through it. `ReadInv`: a resident
page's frame holds what a reader expects, and what was written to a page that is not resident is on disk.
-/

namespace SomeDB

open Lib

/-- The pool, and what was last written to the pages through it. -/
structure Client where
  bpm : BufferPoolManager
  last : PageId → Option Page

/-- What was last written when a call returns. A frame is written for the page it holds. -/
def noteWrite (bpm : BufferPoolManager) (op : BpmOp) (last : PageId → Option Page) : PageId → Option Page :=
  match op with
  | .write fid data =>
    match bpm.pages[fid]? with
    | some page => fun q => if q = page.id then some data else last q
    | none => last
  | _ => last

/-- A call, with a note of what it writes. -/
def clientOp (op : BpmOp) : Prog Fault Client (Option FrameId) := do
  let c ← Prog.get
  let o ← Prog.zoom (·.bpm) (fun c bpm => { c with bpm }) (bpmOp op)
  Prog.modify fun c' => { c' with last := noteWrite c.bpm op c.last }
  pure o

theorem clientOp_eq_ok {op : BpmOp} {o : Option FrameId} {c c' : Client} (h : clientOp op c = (.ok o, c')) :
    ∃ bpm', bpmOp op c.bpm = (.ok o, bpm') ∧ c' = ⟨bpm', noteWrite c.bpm op c.last⟩ := by
  rw [clientOp, Prog.get_bind] at h
  obtain ⟨o', c₁, hzoom, h₁⟩ := Prog.bind_eq_ok h
  obtain ⟨bpm', hop, rfl⟩ := Prog.zoom_eq_ok hzoom
  cases h₁
  exact ⟨bpm', hop, rfl⟩

/-- What a reader of a page expects: the data that was last written to it, or the bytes on disk if none
was. -/
def expected (last : PageId → Option Page) (d : Disk) (pid : PageId) : Option Page := (last pid).or (d pid)

theorem expected_write_ne (last : PageId → Option Page) (d : Disk) {pid q : PageId} (data : Page) (h : q ≠ pid) :
    expected last (d.write pid data) q = expected last d q := by
  rw [expected, Disk.write_ne _ _ h, expected]

/-- `new_btree_index_page` writes the metadata page and the new page. -/
theorem newBtreeIndexPage_eq_ok {isLeaf : Bool} {d d' : Disk} {pid : PageId}
    (h : newBtreeIndexPage isLeaf d = (.ok pid, d')) :
    ∃ metadata, d' = (d.write 0 metadata).write pid (freshNodePage isLeaf) := by
  rw [newBtreeIndexPage] at h
  obtain ⟨page, d₁, hread, h₁⟩ := Prog.bind_eq_ok h
  have hsame : d₁ = d := by
    rw [readPage] at hread
    split at hread <;> cases hread
    rfl
  subst hsame
  obtain ⟨_, d₂, hassert, h₂⟩ := Prog.bind_eq_ok h₁
  obtain ⟨-, rfl⟩ := assert_of_ok hassert
  cases h₂
  exact ⟨_, rfl⟩

/-- The page that `allocate_new_page` has on disk is the one it has in the pool. -/
theorem freshNodePage_false : freshNodePage false = Block.zero := by
  refine Block.ext fun i hi => ?_
  rw [freshNodePage, Block.byte_blit _ _ _ _ hi, Block.byte_zero]
  by_cases h13 : i = 13
  · subst h13
    rfl
  · rw [if_neg]
    rintro ⟨hle, hlt⟩
    simp only [List.length_singleton] at hlt
    omega

/-- The pool holds the entries `rs`, and readers get what they expect. -/
structure ReadInv (bpm : BufferPoolManager) (last : PageId → Option Page) (rs : List (Nat × FrameId)) : Prop where
  dir : bpm.DirInv rs
  resident : ∀ (pid : PageId) (f : FrameId) (page : BpmPage), (pid.toNat, f) ∈ rs → bpm.pages[f]? = some page →
    expected last bpm.diskManager pid = some page.data
  absent : ∀ (pid : PageId) (data : Page), pid.toNat ∉ rs.map (·.1) → last pid = some data →
    bpm.diskManager pid = some data

namespace ReadInv

variable {bpm : BufferPoolManager} {last : PageId → Option Page} {rs : List (Nat × FrameId)} {pid : PageId}
  {f : FrameId}

theorem init (poolSize : Nat) (d : Disk) (hpos : 0 < poolSize % 65536) :
    ReadInv (newBpm poolSize d) (fun _ => none) [] := by
  refine ⟨DirInv.init poolSize d hpos, fun pid f page hmem => ?_, fun pid data _ hlast => ?_⟩
  · cases hmem
  · cases hlast

/-- A page that is not resident is on disk as a reader expects it. -/
theorem expected_of_absent (h : ReadInv bpm last rs) (hpid : pid.toNat ∉ rs.map (·.1)) :
    expected last bpm.diskManager pid = bpm.diskManager pid := by
  rw [expected]
  cases hlast : last pid with
  | none => rfl
  | some data => rw [h.absent pid data hpid hlast]; rfl

/-- The pins and the dirty bit of a page change. -/
theorem setPage (h : ReadInv bpm last rs) {old : BpmPage} (hold : bpm.pages[f]? = some old) (page : BpmPage)
    (hid : page.id = old.id) (hdata : page.data = old.data) {r : ClockReplacer} :
    ReadInv { bpm with pages := bpm.pages.set f page, replacer := r } last rs := by
  refine ⟨h.dir.setPage hold hid, fun q g page' hmem hpage' => ?_, h.absent⟩
  rcases getElem?_set_cases hpage' with ⟨rfl, rfl⟩ | ⟨-, hpage'⟩
  · rw [hdata]
    exact h.resident q g old hmem hold
  · exact h.resident q g page' hmem hpage'

/-- A number has one frame, and a frame one number. -/
theorem frame_unique (h : ReadInv bpm last rs) {n m : Nat} {g : FrameId} (hn : (n, f) ∈ rs) (hm : (m, g) ∈ rs) :
    n = m ↔ f = g := by
  constructor
  · rintro rfl
    exact congrArg Prod.snd (List.inj_on_of_nodup_map h.dir.numbers hn hm rfl)
  · rintro rfl
    exact congrArg Prod.fst (List.inj_on_of_nodup_map h.dir.frames hn hm rfl)

/-- The frame of a resident page is written. -/
theorem write (h : ReadInv bpm last rs) {page : BpmPage} (hpage : bpm.pages[f]? = some page)
    (hframe : frameOf bpm page.id = some f) (data : Page) :
    ReadInv { bpm with pages := bpm.pages.set f { page with data, isDirty := true } }
      (fun q => if q = page.id then some data else last q) rs := by
  have hmem := h.dir.frameIn_iff.mp hframe
  refine ⟨h.dir.setPage hpage rfl, fun q g page' hq hpage' => ?_, fun q d hq hlast => ?_⟩
  · have hiff := h.frame_unique hq hmem
    rcases getElem?_set_cases hpage' with ⟨hg, rfl⟩ | ⟨hg, hpage'⟩
    · have hid : q = page.id := UInt32.toNat_inj.mp (hiff.mpr hg)
      rw [expected, if_pos hid]
      rfl
    · have hid : ¬ q = page.id := fun he => hg (hiff.mp (congrArg UInt32.toNat he))
      rw [expected, if_neg hid]
      exact h.resident q g page' hq hpage'
  · have hid : ¬ q = page.id := by
      rintro rfl
      exact hq (List.mem_map.mpr ⟨_, hmem, rfl⟩)
    rw [if_neg hid] at hlast
    exact h.absent q d hq hlast

/-- A page changes on disk that is resident and was written, or neither. -/
theorem writeDisk (h : ReadInv bpm last rs) {x : PageId} (hx : frameOf bpm x = none ↔ last x = none)
    (data : Page) : ReadInv { bpm with diskManager := bpm.diskManager.write x data } last rs := by
  rw [h.dir.frameIn_eq_none] at hx
  refine ⟨h.dir, fun q g page hq hpage => ?_, fun q d hq hlast => ?_⟩
  · have hold := h.resident q g page hq hpage
    by_cases hqx : q = x
    · subst hqx
      cases hlast : last q with
      | none => exact absurd (List.mem_map.mpr ⟨_, hq, rfl⟩) (hx.mpr hlast)
      | some d =>
        rw [expected, hlast] at hold ⊢
        exact hold
    · exact (expected_write_ne last _ data hqx).trans hold
  · by_cases hqx : q = x
    · subst hqx
      rw [hx.mp hq] at hlast
      cases hlast
    · simp only [Disk.write_ne _ _ hqx]
      exact h.absent q d hq hlast

/-- A page comes into the pool with the data that a reader expects. -/
theorem add {bpm' : BufferPoolManager} (h : ReadInv bpm last rs) (page : BpmPage)
    (hdir : bpm'.DirInv ((pid.toNat, f) :: rs)) (hpages : bpm'.pages = bpm.pages.set f page)
    (hdisk : bpm'.diskManager = bpm.diskManager) (hdata : expected last bpm.diskManager pid = some page.data) :
    ReadInv bpm' last ((pid.toNat, f) :: rs) := by
  have hnew := hdir.frames
  rw [List.map_cons, List.nodup_cons] at hnew
  have hf : f < bpm.pages.length := by
    have hbelow := hdir.below (List.mem_cons_self ..)
    have hlen := hdir.length
    rw [hpages, List.length_set] at hlen
    rw [hlen]
    exact hbelow
  refine ⟨hdir, fun q g page' hq hpage' => ?_, fun q d hq hlast => ?_⟩
  · rw [hdisk]
    rcases List.mem_cons.mp hq with heq | hq
    · obtain ⟨hqpid, rfl⟩ := Prod.mk.injEq .. ▸ heq
      obtain rfl := UInt32.toNat_inj.mp hqpid
      rw [hpages, List.getElem?_set_self hf] at hpage'
      cases hpage'
      exact hdata
    · have hg : f ≠ g := fun he => hnew.1 (he ▸ List.mem_map.mpr ⟨_, hq, rfl⟩)
      rw [hpages, List.getElem?_set_ne hg] at hpage'
      exact h.resident q g page' hq hpage'
  · rw [hdisk]
    exact h.absent q d (fun hmem => hq (List.mem_cons_of_mem _ hmem)) hlast

/-- A page is flushed. -/
theorem remove {rs₁ rs₂ : List (Nat × FrameId)} (h : ReadInv bpm last (rs₁ ++ (pid.toNat, f) :: rs₂))
    {page : BpmPage} (hpage : bpm.pages[f]? = some page) {ht : HashTable FrameId} {r : ClockReplacer}
    (hdir : DirInv bpm.poolSize bpm.pages ht (bpm.freeList.set f true) (rs₁ ++ rs₂)) :
    ReadInv { bpm with
      pageTable := ht
      freeList := bpm.freeList.set f true
      replacer := r
      diskManager := bpm.diskManager.write pid page.data } last (rs₁ ++ rs₂) := by
  have hmem : (pid.toNat, f) ∈ rs₁ ++ (pid.toNat, f) :: rs₂ := by simp
  have hsub : rs₁ ++ rs₂ ⊆ rs₁ ++ (pid.toNat, f) :: rs₂ := ((List.sublist_cons_self ..).append_left rs₁).subset
  have hnumbers := h.dir.numbers
  rw [List.map_append, List.map_cons] at hnumbers
  have hnot : pid.toNat ∉ (rs₁ ++ rs₂).map (·.1) := by
    rw [List.map_append]
    exact (List.nodup_middle.mp hnumbers).notMem
  refine ⟨hdir, fun q g page' hq hpage' => ?_, fun q d hq hlast => ?_⟩
  · have hqpid : q ≠ pid := fun he => hnot (he ▸ List.mem_map.mpr ⟨_, hq, rfl⟩)
    exact (expected_write_ne last _ _ hqpid).trans (h.resident q g page' (hsub hq) hpage')
  · by_cases hqpid : q = pid
    · subst hqpid
      have hold := h.resident q f page hmem hpage
      rw [expected, hlast] at hold
      simp only [Disk.write_same]
      exact hold.symm
    · simp only [Disk.write_ne _ _ hqpid]
      refine h.absent q d (fun hq' => hq ?_) hlast
      have hne : q.toNat ≠ pid.toNat := fun he => hqpid (UInt32.toNat_inj.mp he)
      simp only [List.map_append, List.map_cons, List.mem_append, List.mem_cons] at hq' ⊢
      tauto

end ReadInv

/-! ## Runs of calls -/

/-- When a call keeps what readers expect. A frame is written by a client that has its page pinned, and holds that
page; no page is evicted; a flushed page shares its bucket with no other page; and the pages that
`new_btree_index_page` writes on disk are resident exactly if they were written through the pool. -/
def ReadSafe (c : Client) : BpmOp → Prop
  | .allocate =>
    match (newBtreeIndexPage false c.bpm.diskManager).1 with
    | .ok pid => (frameOf c.bpm pid = none → true ∈ c.bpm.freeList) ∧
      (frameOf c.bpm 0 = none ↔ c.last 0 = none) ∧ (frameOf c.bpm pid = none ↔ c.last pid = none)
    | .error _ => True
  | .fetch pid => frameOf c.bpm pid = none → true ∈ c.bpm.freeList
  | .unpin _ _ => True
  | .write fid _ => ∃ page, c.bpm.pages[fid]? = some page ∧ 0 < page.pinCount ∧ frameOf c.bpm page.id = some fid
  | .flush pid => DirSafe c.bpm (.flush pid)

section Steps

variable {bpm bpm' : BufferPoolManager} {last : PageId → Option Page} {rs : List (Nat × FrameId)} {pid : PageId}
  {f : FrameId}

/-- The page that a frame is taken for stays as it is on disk. -/
theorem Paged.disk_eq {o : Option FrameId} (hpaged : Paged pid bpm o bpm') :
    bpm'.diskManager pid = bpm.diskManager pid := by
  have htakenDisk : ∀ {o : Option FrameId} {bpm₁ : BufferPoolManager}, frameOf bpm pid = none →
      FrameTaken bpm o bpm₁ → bpm₁.diskManager pid = bpm.diskManager pid := by
    intro o bpm₁ hframe htaken
    cases htaken with
    | free hfree => rfl
    | noFrame hfree hevict => rfl
    | clean hfree hevict hpage hdirty => rfl
    | dirty hfree hevict hpage hdirty hflush =>
      cases hflush with
      | absent hframe' => rfl
      | written hframe' hpage' htable hremoved hreplacer =>
        -- the page that is flushed is resident
        refine Disk.write_ne _ _ ?_
        rintro rfl
        cases hframe.symm.trans hframe'
  cases hpaged with
  | found hframe => rfl
  | noFrame hframe htaken => exact htakenDisk hframe htaken
  | added hframe htaken hfid hlen htable hreplacer =>
    have hdisk := htakenDisk hframe htaken
    exact hdisk

/-- A fetch that returns gives what a reader expects. -/
theorem ReadInv.fetch (h : ReadInv bpm last rs) (hrun : fetchBpmPage pid bpm = (.ok f, bpm')) :
    ∃ page : BpmPage, bpm'.pages[f]? = some page ∧ expected last bpm.diskManager pid = some page.data := by
  cases fetchBpmPage_eq_ok hrun with
  | hit hframe hpage =>
    have hexpected := h.resident pid f _ (h.dir.frameIn_iff.mp hframe) hpage
    exact ⟨_, List.getElem?_set_self (List.getElem?_eq_some_iff.mp hpage).1, hexpected⟩
  | miss hframe _ hpaged hpage hdata =>
    refine ⟨_, List.getElem?_set_self (List.getElem?_eq_some_iff.mp hpage).1, ?_⟩
    rw [h.expected_of_absent (h.dir.frameIn_eq_none.mp hframe), ← hpaged.disk_eq, hdata]

/-- A page is put into a free frame as it is on disk. -/
theorem ReadInv.allocate {n : Nat} (h : ReadInv bpm last rs) {d : Disk}
    (hnew : newBtreeIndexPage false bpm.diskManager = (.ok pid, d))
    (hpaged : PagedWithin pid n { bpm with diskManager := d } f bpm')
    (hfree : frameOf bpm pid = none → true ∈ bpm.freeList)
    (h0 : frameOf bpm 0 = none ↔ last 0 = none) (hpid : frameOf bpm pid = none ↔ last pid = none) :
    ∃ rs', ReadInv bpm' last rs' := by
  obtain ⟨metadata, rfl⟩ := newBtreeIndexPage_eq_ok hnew
  have h₁ := (h.writeDisk h0 metadata).writeDisk (x := pid) hpid (freshNodePage false)
  rcases (hpaged.paged hfree).dirInv h₁.dir hfree with ⟨g, -, -, rfl⟩ | ⟨g, -, hg, hdir, -, hdisk, hpages⟩
  · exact ⟨rs, h₁⟩
  · refine ⟨_, h₁.add _ hdir hpages hdisk ?_⟩
    rw [h₁.expected_of_absent hg]
    simp only [Disk.write_same]
    rw [freshNodePage_false]

theorem ReadInv.fetch_inv (h : ReadInv bpm last rs) (hrun : fetchBpmPage pid bpm = (.ok f, bpm'))
    (hfree : frameOf bpm pid = none → true ∈ bpm.freeList) : ∃ rs', ReadInv bpm' last rs' := by
  cases fetchBpmPage_eq_ok hrun with
  | @hit page hframe hpage =>
    exact ⟨rs, h.setPage hpage page.pin rfl rfl⟩
  | @miss page data bpm₁ hframe _ hpaged hpage hdata =>
    rcases hpaged.dirInv h.dir hfree with ⟨g, -, hmem, -⟩ | ⟨g, hg, hnew, hdir, -, hdisk, hpages⟩
    · have hsome := h.dir.frameIn_iff.mpr hmem
      cases hframe.symm.trans hsome
    · cases hg
      have hexpected : expected last bpm.diskManager pid = some data := by
        rw [h.expected_of_absent hnew, ← hpaged.disk_eq, hdata]
      refine ⟨_, h.add { page.pin with data } (hdir.setPage hpage rfl) ?_ hdisk hexpected⟩
      simp only [hpages, List.set_set]

/-- A safe call that returns keeps what readers expect. -/
theorem bpmOp_readInv {op : BpmOp} {o : Option FrameId} (hrun : bpmOp op bpm = (.ok o, bpm'))
    (h : ReadInv bpm last rs) (hsafe : ReadSafe ⟨bpm, last⟩ op) :
    ∃ rs', ReadInv bpm' (noteWrite bpm op last) rs' := by
  cases op with
  | allocate =>
    obtain ⟨f, bpm₁, hcall, hret⟩ := Prog.bind_eq_ok hrun
    cases hret
    obtain ⟨pid, d, hnew, hpaged⟩ := allocateNewPage_eq_ok hcall
    simp only [ReadSafe, hnew] at hsafe
    exact h.allocate hnew hpaged hsafe.1 hsafe.2.1 hsafe.2.2
  | fetch pid =>
    obtain ⟨f, bpm₁, hcall, hret⟩ := Prog.bind_eq_ok hrun
    cases hret
    exact h.fetch_inv hcall hsafe
  | unpin pid isDirty =>
    obtain ⟨f, bpm₁, hcall, hret⟩ := Prog.bind_eq_ok hrun
    cases hret
    cases unpinPage_eq_ok hcall with
    | absent hframe => exact ⟨rs, h⟩
    | zero hframe hpage hpin => exact ⟨rs, h⟩
    | @last f page r hframe hpage hpin hreplacer =>
      exact ⟨rs, h.setPage hpage { page with isDirty, pinCount := 0 } rfl rfl⟩
    | @more f page hframe hpage hzero hone =>
      exact ⟨rs, h.setPage hpage { page with isDirty, pinCount := page.pinCount - 1 } rfl rfl⟩
  | write f data =>
    obtain ⟨_, bpm₁, hcall, hret⟩ := Prog.bind_eq_ok hrun
    cases hret
    obtain ⟨page, hpage, rfl⟩ := writeToFrame_eq_ok hcall
    obtain ⟨page', hpage', -, hframe⟩ := hsafe
    cases hpage.symm.trans hpage'
    simp only [noteWrite, hpage]
    exact ⟨rs, h.write hpage hframe data⟩
  | flush pid =>
    obtain ⟨f, bpm₁, hcall, hret⟩ := Prog.bind_eq_ok hrun
    cases hret
    cases flushPage_eq_ok hcall with
    | absent hframe => exact ⟨rs, h⟩
    | written hframe hpage htable hremoved hreplacer =>
      obtain ⟨rs₁, rs₂, rfl⟩ := List.append_of_mem (h.dir.frameIn_iff.mp hframe)
      have hdir' := h.dir.remove (hsafe (by rw [hframe]; simp)) htable
      exact ⟨_, h.remove hpage hdir'⟩

end Steps

/-- After every run of safe calls, a fetch that returns gives the data that was last written to the page
through the pool, or the bytes on disk if none was. -/
theorem client_run_reads {poolSize : Nat} {d : Disk} {ops : List BpmOp} {os : List (Option FrameId)} {c : Client}
    {pid : PageId} {f : FrameId} {bpm' : BufferPoolManager}
    (hsafe : Prog.Meets clientOp ReadSafe ops ⟨newBpm poolSize d, fun _ => none⟩)
    (hrun : Prog.runAll clientOp ops ⟨newBpm poolSize d, fun _ => none⟩ = (.ok os, c))
    (hfetch : fetchBpmPage pid c.bpm = (.ok f, bpm')) :
    ∃ page : BpmPage, bpm'.pages[f]? = some page ∧ expected c.last c.bpm.diskManager pid = some page.data := by
  by_cases hpos : 0 < poolSize % 65536
  · have hstep : ∀ (c : Client) (op : BpmOp) (o : Option FrameId) (c' : Client),
        (∃ rs, ReadInv c.bpm c.last rs) → ReadSafe c op → clientOp op c = (.ok o, c') →
        ∃ rs, ReadInv c'.bpm c'.last rs := by
      rintro c op o c' ⟨rs, h⟩ hop hstep
      obtain ⟨bpm', hcall, rfl⟩ := clientOp_eq_ok hstep
      exact bpmOp_readInv hcall h hop
    obtain ⟨rs, h⟩ := Prog.runAll_inv_of_ok (fun _ c => ∃ rs, ReadInv c.bpm c.last rs) (fun _ => hstep)
      ⟨[], ReadInv.init poolSize d hpos⟩ hsafe hrun
    exact h.fetch hfetch
  · have hstep : ∀ (c : Client) (op : BpmOp) (o : Option FrameId) (c' : Client),
        NoTable c.bpm → ReadSafe c op → clientOp op c = (.ok o, c') → NoTable c'.bpm := by
      intro c op o c' h _ hstep
      obtain ⟨bpm', hcall, rfl⟩ := clientOp_eq_ok hstep
      exact bpmOp_noTable hcall h
    have h : NoTable c.bpm := Prog.runAll_inv_of_ok (fun _ c => NoTable c.bpm) (fun _ => hstep)
      (NoTable.init d hpos) hsafe hrun
    obtain ⟨o, bpm₁, hfind, -⟩ := Prog.bind_eq_ok hfetch
    exact absurd hfind (findFrame_ne_ok h.1 o)

/-- A page of ones. -/
def onesPage : Page := fun _ => 1

/-- A client of a new pool over a new index. -/
def newClient (poolSize : Nat) : Client := ⟨newBpm poolSize (createBtreeIndex 2), fun _ => none⟩

theorem client_run_reads_back : ∃ os c f bpm' page,
    Prog.runAll clientOp [.allocate, .write 0 onesPage, .unpin 1 true] (newClient 2) = (.ok os, c) ∧
      fetchBpmPage 1 c.bpm = (.ok f, bpm') ∧ bpm'.pages[f]? = some page ∧ page.data = onesPage := by
  obtain ⟨os, hrun⟩ := Prog.eq_ok_of_isOk
    (m := Prog.runAll clientOp [.allocate, .write 0 onesPage, .unpin 1 true]) (s := newClient 2) (by decide)
  obtain ⟨f, hfetch⟩ := Prog.eq_ok_of_isOk (m := fetchBpmPage 1)
    (s := (Prog.runAll clientOp [.allocate, .write 0 onesPage, .unpin 1 true] (newClient 2)).2.bpm) (by decide)
  have hsafe : Prog.Meets clientOp ReadSafe [.allocate, .write 0 onesPage, .unpin 1 true] (newClient 2) := by
    obtain ⟨o, hallocate⟩ := Prog.eq_ok_of_isOk (m := clientOp .allocate) (s := newClient 2) (by decide)
    refine ⟨⟨fun _ => by decide, iff_of_true (by decide) rfl, iff_of_true (by decide) rfl⟩, ?_⟩
    rw [hallocate]
    refine ⟨⟨_, rfl, by decide, by decide⟩, ?_⟩
    split
    · refine ⟨trivial, ?_⟩
      split <;> trivial
    · trivial
  obtain ⟨page, hpage, hdata⟩ := client_run_reads hsafe hrun hfetch
  have hexpected : expected (Prog.runAll clientOp [.allocate, .write 0 onesPage, .unpin 1 true]
      (newClient 2)).2.last (Prog.runAll clientOp [.allocate, .write 0 onesPage, .unpin 1 true]
      (newClient 2)).2.bpm.diskManager 1 = some onesPage := rfl
  rw [hexpected] at hdata
  exact ⟨os, _, f, _, page, hrun, hfetch, hpage, (Option.some.inj hdata).symm⟩

/-- What was written to page 1 is gone when its frame was evicted: the table still has page 1 in frame 0. -/
theorem client_run_reads_fails : ∃ os c f bpm' page,
    Prog.runAll clientOp [.allocate, .write 0 onesPage, .unpin 1 true, .allocate] (newClient 1) = (.ok os, c) ∧
      fetchBpmPage 1 c.bpm = (.ok f, bpm') ∧ bpm'.pages[f]? = some page ∧ c.last 1 = some onesPage ∧
      page.data ≠ onesPage := by
  obtain ⟨os, hrun⟩ := Prog.eq_ok_of_isOk
    (m := Prog.runAll clientOp [.allocate, .write 0 onesPage, .unpin 1 true, .allocate]) (s := newClient 1)
    (by decide)
  refine ⟨os, _, 0, _, _, hrun, rfl, rfl, rfl, fun h => ?_⟩
  exact absurd (congrFun h 0) (by decide)

end SomeDB
