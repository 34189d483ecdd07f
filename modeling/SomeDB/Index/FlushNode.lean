import SomeDB.Index.Pins

/-!
# `flush_node` as a write to disk

`flush_node` brings a page into the pool, writes its frame and flushes it. `PoolOp` are the calls that keep pages
in the pool, with `flush_node` among them. In a run of them that evicts no frame, and that flushes a page only if
it has its bucket of the page table for itself, the table stays an exact directory, and what `flush_node` wrote is
what a later fetch of the page returns (`pool_run_durable`).
-/

namespace SomeDB

open Lib

/-- A call on the pool, or `flush_node`. -/
inductive PoolOp where
  | fetch (pid : PageId)
  | unpin (pid : PageId) (isDirty : Bool)
  | write (fid : FrameId) (data : Page)
  | flush (pid : PageId)
  | flushNode (pid : PageId) (data : Page)

/-- The frame that a call returns. -/
def poolOp : PoolOp → BpmM (Option FrameId)
  | .fetch pid => bpmOp (.fetch pid)
  | .unpin pid isDirty => bpmOp (.unpin pid isDirty)
  | .write fid data => bpmOp (.write fid data)
  | .flush pid => bpmOp (.flush pid)
  | .flushNode pid data => do
    PageStore.flushNode pid data
    pure none

namespace PoolOp

/-- The page that a call brings into the pool. -/
def brings : PoolOp → Option PageId
  | .fetch pid => some pid
  | .flushNode pid _ => some pid
  | .unpin _ _ => none
  | .write _ _ => none
  | .flush _ => none

/-- If the page that a call brings in is not resident, a frame is free. -/
def Room (bpm : BufferPoolManager) (op : PoolOp) : Prop :=
  ∀ p ∈ op.brings, frameOf bpm p = none → true ∈ bpm.freeList

/-- A page that a call takes out of the pool has its bucket of the page table for itself. -/
def Alone (bpm : BufferPoolManager) : PoolOp → Prop
  | .flush pid => frameOf bpm pid ≠ none → ∀ q, q ≠ pid → frameOf bpm q ≠ none →
    hash (sprintfD q) bpm.pageTable ≠ hash (sprintfD pid) bpm.pageTable
  | .flushNode pid _ => ∀ q, q ≠ pid → frameOf bpm q ≠ none →
    hash (sprintfD q) bpm.pageTable ≠ hash (sprintfD pid) bpm.pageTable
  | .fetch _ => True
  | .unpin _ _ => True
  | .write _ _ => True

/-- The condition on the steps of a run. -/
def Safe (bpm : BufferPoolManager) (op : PoolOp) : Prop := op.Room bpm ∧ op.Alone bpm

end PoolOp

section Calls

variable {bpm bpm' : BufferPoolManager} {p : PageId} {f : FrameId} {rs : List (Nat × FrameId)}

/-- Tables of one size have the same buckets. -/
theorem DirInv.hash_eq {rs' : List (Nat × FrameId)} (h : bpm.DirInv rs) (h' : bpm'.DirInv rs')
    (hsize : bpm'.poolSize = bpm.poolSize) (k : CString) : hash k bpm'.pageTable = hash k bpm.pageTable := by
  have heq : bpm'.pageTable.size = bpm.pageTable.size := by
    refine UInt16.toNat_inj.mp ?_
    rw [h'.table.size, h.table.size, hsize]
  rw [hash, hash, heq]

/-- `hash_find` under the key of `std::to_string`. -/
theorem DirInv.find_eq (h : bpm.DirInv rs) (hmem : (p.toNat, f) ∈ rs) {r : Option (HashEl FrameId)}
    (hfind : onPageTable (hashFind true (sprintfU p.toNat)) bpm = (.ok r, bpm')) :
    deref r = .ok f ∧ bpm' = bpm := by
  obtain ⟨ht, hrun, rfl⟩ := Prog.zoom_eq_ok hfind
  have hsmall := h.small _ hmem
  simp only at hsmall
  rw [h.table.hashFind_ok (by rw [atoi_sprintfU (by omega)]; omega)] at hrun
  cases hrun
  have hnumbered : numbered rs (sprintfU p.toNat) = some f := numbered_of_mem h.numbers hmem
  rw [hnumbered]
  exact ⟨rfl, rfl⟩

/-- `flush_node` writes the page to disk, and the page is not resident after it. -/
theorem flushNode_dirInv (h : bpm.DirInv rs) {data : Page} (hroom : (PoolOp.flushNode p data).Room bpm)
    (halone : (PoolOp.flushNode p data).Alone bpm) {u : Unit}
    (hrun : (PageStore.flushNode p data : BpmM Unit) bpm = (.ok u, bpm')) :
    ∃ rs', bpm'.DirInv rs' ∧ (∀ x ∈ rs', x ∈ rs ∧ x.1 ≠ p.toNat) ∧
      bpm'.diskManager = bpm.diskManager.write p data := by
  obtain ⟨f, bpm₁, hcall, h₁⟩ := Prog.bind_eq_ok hrun
  obtain ⟨page, bpm₂, hat, h₂⟩ := Prog.bind_eq_ok h₁
  obtain ⟨hpage, rfl⟩ := pageAt_eq_ok hat
  obtain ⟨rs₁, hdir₁, hmem, hsub, hsize, hdisk⟩ := (fetchBpmPage_eq_ok hcall).dirInv h (hroom p rfl)
  -- the frame holds the page, under its id
  obtain ⟨page', hpage', hid⟩ := hdir₁.ids _ hmem
  obtain rfl : page' = page := Option.some.inj (hpage'.symm.trans hpage)
  obtain ⟨el, bpm₃, hfind, h₃⟩ := Prog.bind_eq_ok h₂
  rw [hid] at hfind
  obtain ⟨hderef, rfl⟩ := hdir₁.find_eq hmem hfind
  rw [hderef, Prog.lift_ok_bind] at h₃
  obtain ⟨_, bpm₄, hwrite, h₄⟩ := Prog.bind_eq_ok h₃
  obtain ⟨old, hold, rfl⟩ := writeToFrame_eq_ok hwrite
  obtain ⟨r, bpm₅, hflush, h₅⟩ := Prog.bind_eq_ok h₄
  cases h₅
  have hdir₂ : DirInv bpm₃.poolSize (bpm₃.pages.set f { old with data, isDirty := true }) bpm₃.pageTable
      bpm₃.freeList rs₁ := hdir₁.setPage hold rfl
  have halone' : DirSafe { bpm₃ with pages := bpm₃.pages.set f { old with data, isDirty := true } } (.flush p) := by
    intro _ q hq hframe
    obtain ⟨g, hg⟩ := Option.ne_none_iff_exists'.mp hframe
    have hqmem := (hsub _ (hdir₁.frameIn_iff.mp hg)).resolve_right fun heq => hq (UInt32.toNat_inj.mp heq)
    have hq' : frameOf bpm q = some g := h.frameIn_iff.mpr hqmem
    have hbefore := halone q hq (by rw [hq']; simp)
    rwa [← h.hash_eq hdir₁ hsize, ← h.hash_eq hdir₁ hsize] at hbefore
  obtain ⟨rs', hdir', hsub', hwritten⟩ := (flushPage_eq_ok hflush).dirInv hdir₂ halone'
  refine ⟨rs', hdir', fun x hx => ?_, ?_⟩
  · obtain ⟨hx₁, hne⟩ := hsub' x hx
    exact ⟨(hsub x hx₁).resolve_right hne, hne⟩
  · have hframe := hdir₂.frameIn_iff.mpr hmem
    rcases hwritten with ⟨hnone, -⟩ | ⟨g, written, hg, hgpage, hd⟩
    · cases hnone.symm.trans hframe
    · obtain rfl : g = f := Option.some.inj (hg.symm.trans hframe)
      simp only [List.getElem?_set_self (List.getElem?_eq_some_iff.mp hold).1, Option.some.injEq] at hgpage
      rw [hd, ← hgpage, ← hdisk]

/-- A call keeps the directory exact, and a page that is not resident and not brought in stays as it is. -/
theorem poolOp_dirInv {op : PoolOp} {o : Option FrameId} (hrun : poolOp op bpm = (.ok o, bpm')) (h : bpm.DirInv rs)
    (hsafe : op.Safe bpm) : ∃ rs', bpm'.DirInv rs' ∧ ∀ q, op.brings ≠ some q → q.toNat ∉ rs.map (·.1) →
      q.toNat ∉ rs'.map (·.1) ∧ bpm'.diskManager q = bpm.diskManager q := by
  obtain ⟨hroom, halone⟩ := hsafe
  cases op with
  | fetch pid =>
    obtain ⟨f, bpm₁, hcall, hret⟩ := Prog.bind_eq_ok hrun
    cases hret
    obtain ⟨rs', h', -, hsub, -, hdisk⟩ := (fetchBpmPage_eq_ok hcall).dirInv h (hroom pid rfl)
    refine ⟨rs', h', fun q hq hnot => ⟨fun hmem => ?_, by rw [hdisk]⟩⟩
    obtain ⟨x, hx, hxq⟩ := List.mem_map.mp hmem
    rcases hsub x hx with hx | hx
    · exact hnot (List.mem_map.mpr ⟨x, hx, hxq⟩)
    · exact hq (congrArg some (UInt32.toNat_inj.mp (hx.symm.trans hxq)))
  | unpin pid isDirty =>
    obtain ⟨f, bpm₁, hcall, hret⟩ := Prog.bind_eq_ok hrun
    cases hret
    obtain ⟨h', hdisk⟩ := (unpinPage_eq_ok hcall).dirInv h
    exact ⟨rs, h', fun q _ hnot => ⟨hnot, by rw [hdisk]⟩⟩
  | write f data =>
    obtain ⟨_, bpm₁, hcall, hret⟩ := Prog.bind_eq_ok hrun
    cases hret
    obtain ⟨page, hpage, rfl⟩ := writeToFrame_eq_ok hcall
    exact ⟨rs, h.setPage hpage rfl, fun q _ hnot => ⟨hnot, rfl⟩⟩
  | flush pid =>
    obtain ⟨r, bpm₁, hcall, hret⟩ := Prog.bind_eq_ok hrun
    cases hret
    obtain ⟨rs', h', hsub, hwritten⟩ := (flushPage_eq_ok hcall).dirInv h halone
    refine ⟨rs', h', fun q _ hnot => ⟨fun hmem => ?_, ?_⟩⟩
    · obtain ⟨x, hx, hxq⟩ := List.mem_map.mp hmem
      exact hnot (List.mem_map.mpr ⟨x, (hsub x hx).1, hxq⟩)
    · rcases hwritten with ⟨-, hdisk⟩ | ⟨f, page, hframe, -, hdisk⟩
      · rw [hdisk]
      · have hq : q ≠ pid := by
          rintro rfl
          exact hnot (List.mem_map.mpr ⟨_, h.frameIn_iff.mp hframe, rfl⟩)
        rw [hdisk, Disk.write_ne _ _ hq]
  | flushNode pid data =>
    obtain ⟨_, bpm₁, hcall, hret⟩ := Prog.bind_eq_ok hrun
    cases hret
    obtain ⟨rs', h', hsub, hdisk⟩ := flushNode_dirInv h hroom halone hcall
    refine ⟨rs', h', fun q hq hnot => ⟨fun hmem => ?_, ?_⟩⟩
    · obtain ⟨x, hx, hxq⟩ := List.mem_map.mp hmem
      exact hnot (List.mem_map.mpr ⟨x, (hsub x hx).1, hxq⟩)
    · rw [hdisk, Disk.write_ne _ _ fun heq => hq (congrArg some heq.symm)]

/-- Without a page table no `flush_node` returns, and the other calls leave it so. -/
theorem poolOp_noTable {op : PoolOp} {o : Option FrameId} (hrun : poolOp op bpm = (.ok o, bpm')) (h : NoTable bpm) :
    NoTable bpm' ∧ ∀ p data, op ≠ .flushNode p data := by
  cases op with
  | fetch pid =>
    exact ⟨bpmOp_noTable (show bpmOp (.fetch pid) bpm = (.ok o, bpm') from hrun) h, fun _ _ hop => nomatch hop⟩
  | unpin pid isDirty =>
    exact ⟨bpmOp_noTable (show bpmOp (.unpin pid isDirty) bpm = (.ok o, bpm') from hrun) h, fun _ _ hop => nomatch hop⟩
  | write f data =>
    exact ⟨bpmOp_noTable (show bpmOp (.write f data) bpm = (.ok o, bpm') from hrun) h, fun _ _ hop => nomatch hop⟩
  | flush pid =>
    exact ⟨bpmOp_noTable (show bpmOp (.flush pid) bpm = (.ok o, bpm') from hrun) h, fun _ _ hop => nomatch hop⟩
  | flushNode pid data =>
    obtain ⟨_, bpm₁, hcall, -⟩ := Prog.bind_eq_ok hrun
    obtain ⟨f, bpm₂, hfetch, -⟩ := Prog.bind_eq_ok hcall
    obtain ⟨o, bpm₃, hfind, -⟩ := Prog.bind_eq_ok hfetch
    exact absurd hfind (findFrame_ne_ok h.1 o)

end Calls

/-- What a `flush_node` that returned has done: the page is on disk, no other page on disk changed, and the next
fetch of the page, whatever calls come before it, returns a frame with the data. -/
structure Durable (p : PageId) (data : Page) (bpm bpm' : BufferPoolManager) : Prop where
  written : (readPage p bpm'.diskManager).1 = .ok data
  others : ∀ q, q ≠ p → bpm'.diskManager q = bpm.diskManager q
  gone : frameOf bpm' p = none
  fetched : ∀ ops os bpm₁ f bpm₂,
    Prog.Meets poolOp (fun b op => PoolOp.Safe b op ∧ op.brings ≠ some p) ops bpm' →
    Prog.runAll poolOp ops bpm' = (.ok os, bpm₁) → (PoolOp.fetch p).Room bpm₁ →
    fetchBpmPage p bpm₁ = (.ok f, bpm₂) → ∃ page, bpm₂.pages[f]? = some page ∧ page.data = data

section Runs

variable {bpm bpm' : BufferPoolManager} {p : PageId} {rs : List (Nat × FrameId)}

/-- A page that is not resident is read from disk. -/
theorem fetch_of_disk (h : bpm.DirInv rs) (hnot : p.toNat ∉ rs.map (·.1)) {data : Page}
    (hdisk : bpm.diskManager p = some data) (hroom : (PoolOp.fetch p).Room bpm) {f : FrameId}
    (hrun : fetchBpmPage p bpm = (.ok f, bpm')) : ∃ page, bpm'.pages[f]? = some page ∧ page.data = data := by
  have hframe : frameOf bpm p = none := h.frameIn_eq_none.mpr hnot
  cases fetchBpmPage_eq_ok hrun with
  | hit hframe' hpage => cases hframe.symm.trans hframe'
  | @miss page data' bpm₁ _ _ hpaged hpage hdata =>
    rcases hpaged.dirInv h (hroom p rfl) with ⟨g, -, hmem, -⟩ | ⟨g, -, -, -, -, hd, -⟩
    · exact absurd (List.mem_map.mpr ⟨_, hmem, rfl⟩) hnot
    · rw [hd, hdisk] at hdata
      exact ⟨_, List.getElem?_set_self (List.getElem?_eq_some_iff.mp hpage).1, (Option.some.inj hdata).symm⟩

theorem flushNode_durable (h : bpm.DirInv rs) {data : Page} (hsafe : (PoolOp.flushNode p data).Safe bpm)
    {o : Option FrameId} (hrun : poolOp (.flushNode p data) bpm = (.ok o, bpm')) : Durable p data bpm bpm' := by
  obtain ⟨_, bpm₁, hcall, hret⟩ := Prog.bind_eq_ok hrun
  cases hret
  obtain ⟨rs', h', hsub, hdisk⟩ := flushNode_dirInv h hsafe.1 hsafe.2 hcall
  have hnot : p.toNat ∉ rs'.map (·.1) := fun hmem => by
    obtain ⟨x, hx, hxp⟩ := List.mem_map.mp hmem
    exact (hsub x hx).2 hxp
  have hwritten : bpm'.diskManager p = some data := by rw [hdisk, Disk.write_same]
  refine ⟨by rw [Shows.readPage_ok hwritten], fun q hq => by rw [hdisk, Disk.write_ne _ _ hq],
    h'.frameIn_eq_none.mpr hnot, fun ops os bpm₁ f bpm₂ hops hruns hroom hfetch => ?_⟩
  -- while the page is not brought in, it stays absent and its page on disk as it is
  obtain ⟨rs₁, h₁, hnot₁, hdisk₁⟩ := Prog.runAll_inv_of_ok
    (fun _ b => ∃ rs, b.DirInv rs ∧ p.toNat ∉ rs.map (·.1) ∧ b.diskManager p = some data)
    (fun _ b op o b' hinv hop hstep => by
      obtain ⟨rs, hdir, hnotb, hdiskb⟩ := hinv
      obtain ⟨rs', hdir', hkept⟩ := poolOp_dirInv hstep hdir hop.1
      obtain ⟨hnot', hdisk'⟩ := hkept p hop.2 hnotb
      exact ⟨rs', hdir', hnot', hdisk'.trans hdiskb⟩)
    ⟨rs', h', hnot, hwritten⟩ hops hruns
  exact fetch_of_disk h₁ hnot₁ hdisk₁ hroom hfetch

end Runs

/-- In every state that a run of safe calls reaches, the page table is an exact directory of the frames, and a
`flush_node` that is safe there is a durable write. -/
theorem pool_run_durable {poolSize : Nat} {d : Disk} {ops : List PoolOp} {os : List (Option FrameId)}
    {bpm : BufferPoolManager} (hsafe : Prog.Meets poolOp PoolOp.Safe ops (newBpm poolSize d))
    (hrun : Prog.runAll poolOp ops (newBpm poolSize d) = (.ok os, bpm)) :
    ExactDirectory bpm ∧ ∀ p data o bpm', (PoolOp.flushNode p data).Safe bpm →
      poolOp (.flushNode p data) bpm = (.ok o, bpm') → Durable p data bpm bpm' := by
  by_cases hpos : 0 < poolSize % 65536
  · obtain ⟨rs, h⟩ := Prog.runAll_inv_of_ok (fun _ bpm => ∃ rs, bpm.DirInv rs)
      (fun _ b op o b' hinv hop hstep => by
        obtain ⟨rs, hdir⟩ := hinv
        obtain ⟨rs', hdir', -⟩ := poolOp_dirInv hstep hdir hop
        exact ⟨rs', hdir'⟩)
      ⟨[], DirInv.init poolSize d hpos⟩ hsafe hrun
    exact ⟨h.exact, fun p data o bpm' hop hstep => flushNode_durable h hop hstep⟩
  · have h : NoTable bpm := Prog.runAll_inv_of_ok (fun _ bpm => NoTable bpm)
      (fun _ b op o b' hinv _ hstep => (poolOp_noTable hstep hinv).1) (NoTable.init d hpos) hsafe hrun
    exact ⟨h.exact, fun p data o bpm' _ hstep => absurd rfl ((poolOp_noTable hstep h).2 p data)⟩

/-- A disk of three pages. -/
def threePages : Disk := fun p => if p < 3 then some Block.zero else none

/-- Two pages are resident, and one of them is written. -/
theorem pool_run_durable_two : ∃ os bpm o bpm',
    Prog.runAll poolOp [.fetch 0, .fetch 1] (newBpm 2 threePages) = (.ok os, bpm) ∧
      poolOp (.flushNode 1 (freshNodePage true)) bpm = (.ok o, bpm') ∧ frameOf bpm 0 = some 0 ∧
      ExactDirectory bpm ∧ Durable 1 (freshNodePage true) bpm bpm' := by
  obtain ⟨os, hrun⟩ := Prog.eq_ok_of_isOk (m := Prog.runAll poolOp [.fetch 0, .fetch 1])
    (s := newBpm 2 threePages) (by decide)
  obtain ⟨o₀, hzero⟩ := Prog.eq_ok_of_isOk (m := poolOp (.fetch 0)) (s := newBpm 2 threePages) (by decide)
  have hfirst : (PoolOp.fetch 0).Safe (newBpm 2 threePages) := ⟨fun _ _ _ => by decide, trivial⟩
  have hsecond : (PoolOp.fetch 1).Safe (poolOp (.fetch 0) (newBpm 2 threePages)).2 := ⟨fun _ _ _ => by decide, trivial⟩
  have hsafe : Prog.Meets poolOp PoolOp.Safe [.fetch 0, .fetch 1] (newBpm 2 threePages) := by
    refine ⟨hfirst, ?_⟩
    rw [hzero]
    refine ⟨hsecond, ?_⟩
    split <;> trivial
  obtain ⟨hexact, hdurable⟩ := pool_run_durable hsafe hrun
  obtain ⟨o, hflush⟩ := Prog.eq_ok_of_isOk (m := poolOp (.flushNode 1 (freshNodePage true)))
    (s := (Prog.runAll poolOp [.fetch 0, .fetch 1] (newBpm 2 threePages)).2) (by decide)
  have hroom : (PoolOp.flushNode 1 (freshNodePage true)).Room
      (Prog.runAll poolOp [.fetch 0, .fetch 1] (newBpm 2 threePages)).2 := by
    intro p hp hnone
    cases hp
    exact absurd hnone (by decide)
  refine ⟨os, _, o, _, hrun, hflush, by decide, hexact, hdurable 1 _ o _ ⟨hroom, fun q hq hframe => ?_⟩ hflush⟩
  -- page 0 has another bucket, and no third page was brought in
  by_cases hq0 : q = 0
  · rw [hq0]
    decide
  obtain ⟨o₁, bpm₁, os', hstep₁, hrest, -⟩ := Prog.runAll_cons_eq_ok hrun
  obtain ⟨o₂, bpm₂, os'', hstep₂, hnil, -⟩ := Prog.runAll_cons_eq_ok hrest
  cases hnil
  rw [hstep₁] at hsecond
  obtain ⟨rs₁, h₁, hkept₁⟩ := poolOp_dirInv hstep₁ (DirInv.init 2 _ (by decide)) hfirst
  obtain ⟨rs₂, h₂, hkept₂⟩ := poolOp_dirInv hstep₂ h₁ hsecond
  have hnot₁ := (hkept₁ q (fun he => hq0 (Option.some.inj he).symm) (by simp)).1
  have hnot₂ := (hkept₂ q (fun he => hq (Option.some.inj he).symm) hnot₁).1
  exact absurd (h₂.frameIn_eq_none.mpr hnot₂) hframe

/-- The pages 0 and 2 have one bucket. When page 0 is flushed, the key and the frame number of page 2 are freed. -/
theorem pool_run_durable_fails : ∃ os bpm,
    Prog.Meets poolOp (fun b op => PoolOp.Room b op) [.fetch 0, .fetch 2, .flush 0] (newBpm 2 threePages) ∧
      Prog.runAll poolOp [.fetch 0, .fetch 2, .flush 0] (newBpm 2 threePages) = (.ok os, bpm) ∧
      ¬ ExactDirectory bpm := by
  obtain ⟨os, hrun⟩ := Prog.eq_ok_of_isOk (m := Prog.runAll poolOp [.fetch 0, .fetch 2, .flush 0])
    (s := newBpm 2 threePages) (by decide)
  refine ⟨os, _, ?_, hrun, fun h => ?_⟩
  · obtain ⟨o, hzero⟩ := Prog.eq_ok_of_isOk (m := poolOp (.fetch 0)) (s := newBpm 2 threePages) (by decide)
    obtain ⟨o', htwo⟩ := Prog.eq_ok_of_isOk (m := poolOp (.fetch 2))
      (s := (poolOp (.fetch 0) (newBpm 2 threePages)).2) (by decide)
    refine ⟨fun _ _ _ => by decide, ?_⟩
    rw [hzero]
    refine ⟨fun _ _ _ => by decide, ?_⟩
    rw [htwo]
    refine ⟨fun _ hp => absurd hp (by simp [PoolOp.brings]), ?_⟩
    split <;> trivial
  · obtain ⟨p, hp⟩ := (h.free 1 (by decide)).mp (by decide)
    rw [frameOf, frameIn_of_freed (by decide)] at hp
    cases hp

end SomeDB
