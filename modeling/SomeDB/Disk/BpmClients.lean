import SomeDB.Disk.BpmHolds

/-!
# Clients of one page

Several clients fetch one page, write to the frame they got, unpin the page and flush it, in any order.
`PageClients` is the pool with what each client holds and what the clients expect of the dirty mark.
`MarkKept`: the mark is set while there is an unsaved write, and it is not set right after a flush.

* `unpin_page` assigns the mark, so that a client that has not written takes away the mark of one that has.
* `flush_page` leaves the mark as it is.
* A fetch that finds no frame does not return a null pointer: it reads through the element it did not find.
-/

namespace SomeDB

open Lib

/-- The page in a frame has its dirty mark. -/
def dirtyAt (bpm : BufferPoolManager) (fid : FrameId) : Bool := bpm.pages[fid]?.any (·.isDirty)

/-- A page is resident and has its dirty mark. -/
def dirtyOf (bpm : BufferPoolManager) (p : PageId) : Bool := (frameOf bpm p).any (dirtyAt bpm)

/-- What a client holds after its fetch: the frame, and whether it has written to it. -/
structure PageClient where
  frame : FrameId
  written : Bool

/-- The pool and the clients of one page. `unsaved`: a client has written since the page was last written to
disk. `flushed`: the frame of the page, if the last call wrote it to disk. -/
structure PageClients where
  bpm : BufferPoolManager
  clients : Nat → Option PageClient
  unsaved : Bool
  flushed : Option FrameId

/-- A pool with clients that have not fetched the page yet. -/
def PageClients.start (bpm : BufferPoolManager) : PageClients := ⟨bpm, fun _ => none, false, none⟩

/-- A call of the client with the number `c`. -/
inductive HolderOp where
  | fetch (c : Nat)
  | write (c : Nat) (data : Page)
  | unpin (c : Nat)
  | flush

def PageClients.onBpm {α : Type} (m : BpmM α) : Prog Fault PageClients α :=
  Prog.zoom (·.bpm) (fun s bpm => { s with bpm }) m

/-- The calls of the clients of page `p`. A client that holds the page does not fetch it, one that does not hold
it only fetches it, and what it passes to `unpin_page` is whether it has written. -/
def holderOp (p : PageId) : HolderOp → Prog Fault PageClients Unit
  | .fetch c => do
    match (← Prog.get).clients c with
    | some _ => pure ()
    | none => do
      let frame ← PageClients.onBpm (fetchBpmPage p)
      Prog.modify fun s =>
        { s with clients := Function.update s.clients c (some ⟨frame, false⟩), flushed := none }
  | .write c data => do
    match (← Prog.get).clients c with
    | none => pure ()
    | some client => do
      PageClients.onBpm (writeToFrame client.frame data)
      Prog.modify fun s =>
        { s with
          clients := Function.update s.clients c (some { client with written := true })
          unsaved := true
          flushed := none }
  | .unpin c => do
    match (← Prog.get).clients c with
    | none => pure ()
    | some client => do
      let _ ← PageClients.onBpm (unpinPage p client.written)
      Prog.modify fun s => { s with clients := Function.update s.clients c none, flushed := none }
  | .flush => do
    let frame := frameOf (← Prog.get).bpm p
    let written ← PageClients.onBpm (flushPage p)
    if written then Prog.modify fun s => { s with unsaved := false, flushed := frame }
    else Prog.modify fun s => { s with flushed := none }

/-- The dirty mark is set while there is an unsaved write, and it is not set right after a flush. -/
def MarkKept (p : PageId) (s : PageClients) : Prop :=
  (s.unsaved = true → dirtyOf s.bpm p = true) ∧ ∀ f, s.flushed = some f → dirtyAt s.bpm f = false

/-- When a call keeps the mark. A write goes to the frame that has the page, or that frame has its mark already.
A client that unpins has written itself, or there is nothing unsaved, or the page has no pins. A flush finds the
page without its mark. -/
def MarkSafe (p : PageId) (s : PageClients) : HolderOp → Prop
  | .fetch _ => True
  | .write c _ =>
    match s.clients c with
    | none => True
    | some client => frameOf s.bpm p = some client.frame ∨ dirtyOf s.bpm p = true
  | .unpin c =>
    match s.clients c with
    | none => True
    | some client => s.unsaved = true → client.written = true ∨ pinsOf s.bpm p = some 0
  | .flush => dirtyOf s.bpm p = false

section Mark

variable {p : PageId} {bpm bpm' : BufferPoolManager} {f g : FrameId} {page : BpmPage} {data : Page}

theorem dirtyAt_of_page (h : bpm.pages[f]? = some page) : dirtyAt bpm f = page.isDirty := by
  rw [dirtyAt, h]
  rfl

theorem dirtyOf_of_frame (h : frameOf bpm p = some f) : dirtyOf bpm p = dirtyAt bpm f := by
  rw [dirtyOf, h]
  rfl

theorem dirtyOf_of_absent (h : frameOf bpm p = none) : dirtyOf bpm p = false := by
  rw [dirtyOf, h]
  rfl

theorem dirtyAt_set (h : f < bpm.pages.length) (hpages : bpm'.pages = bpm.pages.set f page) (g : FrameId) :
    dirtyAt bpm' g = if g = f then page.isDirty else dirtyAt bpm g := by
  unfold dirtyAt
  rw [hpages]
  split
  · next he => rw [he, List.getElem?_set_self h]; rfl
  · next he => rw [List.getElem?_set_ne (Ne.symm he)]

/-- The mark of a page after one frame was set. -/
theorem dirtyOf_set (h : f < bpm.pages.length) (page : BpmPage) (r : ClockReplacer) :
    dirtyOf { bpm with pages := bpm.pages.set f page, replacer := r } p =
      if frameOf bpm p = some f then page.isDirty else dirtyOf bpm p := by
  unfold dirtyOf
  cases hp : frameOf bpm p with
  | none => rfl
  | some g =>
    rw [Option.any_some, Option.any_some, dirtyAt_set h rfl]
    simp only [Option.some.injEq]

/-! ## What a call does to the mark -/

variable {s s' : PageClients} {clients : Nat → Option PageClient}

theorem fetch_markKept (h : MarkKept p s) (hfetched : Fetched p s.bpm f bpm') :
    MarkKept p ⟨bpm', clients, s.unsaved, none⟩ := by
  refine ⟨fun hu => ?_, fun g hg => by cases hg⟩
  have hdirty := h.1 hu
  cases hfetched with
  | hit hframe hpage =>
    have hlt := (List.getElem?_eq_some_iff.mp hpage).1
    rw [dirtyOf_of_frame hframe, dirtyAt_of_page hpage] at hdirty
    exact (dirtyOf_set hlt _ _).trans ((if_pos hframe).trans hdirty)
  | miss hframe habsent hpaged hpage hdata =>
    rw [dirtyOf_of_absent hframe] at hdirty
    cases hdirty

theorem write_markKept_iff (hpage : bpm.pages[f]? = some page) :
    MarkKept p ⟨{ bpm with pages := bpm.pages.set f { page with data, isDirty := true } }, clients, true, none⟩ ↔
      frameOf bpm p = some f ∨ dirtyOf bpm p = true := by
  have hset := dirtyOf_set (p := p) (List.getElem?_eq_some_iff.mp hpage).1
    { page with data := data, isDirty := true } bpm.replacer
  unfold MarkKept
  rw [hset]
  by_cases hf : frameOf bpm p = some f <;> simp [hf]

/-- After `unpin_page` the page has the mark that was passed, unless the call did nothing. -/
theorem Unpinned.dirtyOf_eq {isDirty b : Bool} (h : Unpinned p isDirty bpm b bpm') (hdirty : dirtyOf bpm p = true) :
    dirtyOf bpm' p = if pinsOf bpm p = some 0 then true else isDirty := by
  cases h with
  | absent hframe =>
    rw [dirtyOf_of_absent hframe] at hdirty
    cases hdirty
  | zero hframe hpage hpin =>
    rw [if_pos (by rw [pinsOf, hframe, Option.bind_some, hpage, Option.map_some, hpin]), hdirty]
  | last hframe hpage hpin hreplacer =>
    have hpins : pinsOf bpm p = some 1 := by rw [pinsOf, hframe, Option.bind_some, hpage, Option.map_some, hpin]
    refine (dirtyOf_set (List.getElem?_eq_some_iff.mp hpage).1 _ _).trans ((if_pos hframe).trans ?_)
    rw [hpins]
    rfl
  | @more fid page hframe hpage hzero hone =>
    have hpins : pinsOf bpm p = some page.pinCount := by rw [pinsOf, hframe, Option.bind_some, hpage, Option.map_some]
    refine (dirtyOf_set (List.getElem?_eq_some_iff.mp hpage).1 _ _).trans ((if_pos hframe).trans ?_)
    rw [hpins, if_neg fun he => hzero (Option.some.inj he)]

theorem unpin_markKept_iff {isDirty b : Bool} (h : MarkKept p s) (hunpinned : Unpinned p isDirty s.bpm b bpm') :
    MarkKept p ⟨bpm', clients, s.unsaved, none⟩ ↔
      (s.unsaved = true → isDirty = true ∨ pinsOf s.bpm p = some 0) := by
  unfold MarkKept
  by_cases hu : s.unsaved = true
  · rw [hunpinned.dirtyOf_eq (h.1 hu)]
    by_cases hpins : pinsOf s.bpm p = some 0 <;> simp [hu, hpins]
  · simp [hu]

theorem holderOp_markKept_iff {op : HolderOp} {u : Unit} (hrun : holderOp p op s = (.ok u, s')) (h : MarkKept p s) :
    MarkKept p s' ↔ MarkSafe p s op := by
  cases op with
  | fetch c =>
    rw [holderOp, Prog.get_bind] at hrun
    refine iff_of_true ?_ trivial
    cases hc : s.clients c with
    | some client => rw [hc] at hrun; cases hrun; exact h
    | none =>
      rw [hc] at hrun
      obtain ⟨frame, s₁, hcall, hret⟩ := Prog.bind_eq_ok hrun
      obtain ⟨bpm', hfetch, rfl⟩ := Prog.zoom_eq_ok hcall
      cases hret
      exact fetch_markKept (s := s) h (fetchBpmPage_eq_ok hfetch)
  | write c data =>
    rw [holderOp, Prog.get_bind] at hrun
    unfold MarkSafe
    cases hc : s.clients c with
    | none => rw [hc] at hrun; cases hrun; simp only [hc, h]
    | some client =>
      rw [hc] at hrun
      obtain ⟨_, s₁, hcall, hret⟩ := Prog.bind_eq_ok hrun
      obtain ⟨bpm', hwrite, rfl⟩ := Prog.zoom_eq_ok hcall
      cases hret
      obtain ⟨page, hpage, rfl⟩ := writeToFrame_eq_ok hwrite
      simp only [hc]
      exact write_markKept_iff hpage
  | unpin c =>
    rw [holderOp, Prog.get_bind] at hrun
    unfold MarkSafe
    cases hc : s.clients c with
    | none => rw [hc] at hrun; cases hrun; simp only [hc, h]
    | some client =>
      rw [hc] at hrun
      obtain ⟨b, s₁, hcall, hret⟩ := Prog.bind_eq_ok hrun
      obtain ⟨bpm', hunpin, rfl⟩ := Prog.zoom_eq_ok hcall
      cases hret
      simp only [hc]
      exact unpin_markKept_iff (s := s) h (unpinPage_eq_ok hunpin)
  | flush =>
    rw [holderOp, Prog.get_bind] at hrun
    obtain ⟨b, s₁, hcall, hret⟩ := Prog.bind_eq_ok hrun
    obtain ⟨bpm', hflush, rfl⟩ := Prog.zoom_eq_ok hcall
    unfold MarkSafe
    cases flushPage_eq_ok hflush with
    | absent hframe =>
      cases hret
      refine iff_of_true ⟨h.1, fun f hf => by cases hf⟩ (dirtyOf_of_absent hframe)
    | written hframe hpage htable hremoved hreplacer =>
      cases hret
      rw [dirtyOf_of_frame hframe]
      refine ⟨fun hkept => hkept.2 _ hframe, fun hclean => ⟨fun hu => Bool.noConfusion hu, fun g hg => ?_⟩⟩
      obtain rfl := Option.some.inj (hframe.symm.trans hg)
      exact hclean

end Mark

/-- In a run of the clients' calls the mark is right in every state just when every call is one that keeps it. -/
theorem clients_markKept_iff {p : PageId} {bpm : BufferPoolManager} {ops : List HolderOp} {us : List Unit}
    {s : PageClients} (hrun : Prog.runAll (holderOp p) ops (PageClients.start bpm) = (.ok us, s)) :
    (∀ done us' s', done <+: ops → Prog.runAll (holderOp p) done (PageClients.start bpm) = (.ok us', s') →
      MarkKept p s') ↔ Prog.Meets (holderOp p) (MarkSafe p) ops (PageClients.start bpm) :=
  Prog.runAll_inv_iff (fun _ _ _ _ hkept hstep => holderOp_markKept_iff hstep hkept)
    ⟨fun hu => (Bool.false_ne_true hu).elim, fun _ hf => by cases hf⟩ hrun

instance (p : PageId) (s : PageClients) : ∀ op, Decidable (MarkSafe p s op)
  | .fetch _ => isTrue trivial
  | .write c _ =>
    match hc : s.clients c with
    | none => isTrue (by simp only [MarkSafe, hc])
    | some client => decidable_of_iff (frameOf s.bpm p = some client.frame ∨ dirtyOf s.bpm p = true)
        (by simp only [MarkSafe, hc])
  | .unpin c =>
    match hc : s.clients c with
    | none => isTrue (by simp only [MarkSafe, hc])
    | some client => decidable_of_iff (s.unsaved = true → client.written = true ∨ pinsOf s.bpm p = some 0)
        (by simp only [MarkSafe, hc])
  | .flush => inferInstanceAs (Decidable (_ = _))

/-- The client that has not written is the first to unpin. -/
def writerLast : List HolderOp := [.fetch 0, .fetch 1, .unpin 1, .write 0 Block.zero, .unpin 0]

theorem clients_markKept_writerLast : ∃ us s,
    Prog.runAll (holderOp 0) writerLast (PageClients.start (newBpm 1 (createBtreeIndex 2))) = (.ok us, s) ∧
      MarkKept 0 s := by
  obtain ⟨us, hrun⟩ := Prog.eq_ok_of_isOk (m := Prog.runAll (holderOp 0) writerLast)
    (s := PageClients.start (newBpm 1 (createBtreeIndex 2))) (by decide)
  exact ⟨us, _, hrun, (clients_markKept_iff hrun).mpr (by decide) writerLast us _ (List.prefix_refl _) hrun⟩

/-- The client that has not written unpins after the write. -/
theorem clients_markKept_fails : ∃ us s,
    Prog.runAll (holderOp 0) [.fetch 0, .fetch 1, .write 0 Block.zero, .unpin 1]
      (PageClients.start (newBpm 1 (createBtreeIndex 2))) = (.ok us, s) ∧ ¬ MarkKept 0 s := by
  obtain ⟨us, hrun⟩ := Prog.eq_ok_of_isOk
    (m := Prog.runAll (holderOp 0) [.fetch 0, .fetch 1, .write 0 Block.zero, .unpin 1])
    (s := PageClients.start (newBpm 1 (createBtreeIndex 2))) (by decide)
  exact ⟨us, _, hrun, fun h => absurd (h.1 (by decide)) (by decide)⟩

/-! ## An exhausted pool -/

/-- No frame is free and `evict` yields no victim. -/
def Exhausted (bpm : BufferPoolManager) : Prop := true ∉ bpm.freeList ∧ ∃ r, evict bpm.replacer = (.ok none, r)

/-- The fetch returns a null pointer and leaves the page table, the free list and the frames as they were. -/
def ReportsExhaustion (pid : PageId) (bpm : BufferPoolManager) : Prop := ∃ bpm',
  bpmOp (.fetch pid) bpm = (.ok none, bpm') ∧
    bpm'.pageTable = bpm.pageTable ∧ bpm'.freeList = bpm.freeList ∧ bpm'.pages = bpm.pages

section Exhausted

variable {bpm : BufferPoolManager} {pid : PageId}

theorem findFrame_of_absent (h : ¬ Present bpm pid) : findFrame pid bpm = (.ok none, bpm) := by
  have hfind : hashFind true (sprintfD pid) bpm.pageTable = (.ok none, bpm.pageTable) :=
    Prod.ext (not_not.mp h) (hashFind_state true (sprintfD pid) bpm.pageTable)
  unfold findFrame onPageTable
  rw [Prog.bind_ok (Prog.zoom_ok hfind)]
  rfl

theorem takeFrame_of_exhausted {r : ClockReplacer} (hfree : true ∉ bpm.freeList)
    (hevict : evict bpm.replacer = (.ok none, r)) : takeFrame bpm = (.ok none, { bpm with replacer := r }) := by
  have hidx : bpm.freeList.findIdx? id = none := by
    rw [List.findIdx?_eq_none_iff]
    intro b hb
    cases b with
    | false => rfl
    | true => exact absurd hb hfree
  unfold takeFrame
  rw [Prog.get_bind, hidx]
  simp only
  rw [onReplacer, Prog.bind_ok (Prog.zoom_ok hevict)]
  rfl

/-- The null pointer of `new_bpm_page` comes back to `fetch_bpm_page`, which looks the page up once more and reads
the frame number of the element it does not find. -/
theorem fetchBpmPage_of_exhausted {r : ClockReplacer} (hfree : true ∉ bpm.freeList)
    (hevict : evict bpm.replacer = (.ok none, r)) (habsent : ¬ Present bpm pid) :
    fetchBpmPage pid bpm = (.error .nullPointer, { bpm with replacer := r }) := by
  have hfind := findFrame_of_absent habsent
  have hnew : newBpmPage pid bpm = (.ok none, { bpm with replacer := r }) := by
    unfold newBpmPage
    rw [Prog.bind_ok hfind]
    simp only
    rw [Prog.bind_ok (takeFrame_of_exhausted hfree hevict)]
    rfl
  have hagain : findFrame pid { bpm with replacer := r } = (.ok none, { bpm with replacer := r }) :=
    findFrame_of_absent habsent
  unfold fetchBpmPage
  rw [Prog.bind_ok hfind]
  simp only
  rw [Prog.bind_ok hnew, Prog.bind_ok hagain]
  rfl

end Exhausted

/-- An exhausted pool is never reported. -/
theorem fetch_exhausted_fails {bpm : BufferPoolManager} {pid : PageId} (h : Exhausted bpm)
    (habsent : ¬ Present bpm pid) : ¬ ReportsExhaustion pid bpm ∧ (fetchBpmPage pid bpm).1 = .error .nullPointer := by
  obtain ⟨hfree, r, hevict⟩ := h
  have hfetch := fetchBpmPage_of_exhausted hfree hevict habsent
  refine ⟨fun hreports => ?_, by rw [hfetch]⟩
  obtain ⟨bpm', hrun, -⟩ := hreports
  rw [bpmOp, Prog.bind_error hfetch] at hrun
  cases hrun

/-- A pool of one frame in which page 0 is pinned. -/
def onePinned : BufferPoolManager := (fetchBpmPage 0 (newBpm 1 (createBtreeIndex 2))).2

theorem fetch_exhausted_fails_one : ¬ ReportsExhaustion 1 onePinned :=
  (fetch_exhausted_fails ⟨by decide, _, rfl⟩ (not_not.mpr rfl)).1

theorem fetch_onePinned_fails :
    Exhausted onePinned ∧ ¬ Present onePinned 1 ∧ ¬ ReportsExhaustion 1 onePinned := by
  refine ⟨⟨by decide, _, rfl⟩, not_not.mpr rfl, fun h => ?_⟩
  obtain ⟨bpm', hrun, -⟩ := h
  have hfault : (bpmOp (.fetch 1) onePinned).1.isOk = false := by decide
  rw [hrun] at hfault
  cases hfault

end SomeDB
