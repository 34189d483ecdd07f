import SomeDB.Disk.BpmHolds

/-!
# Pin counts and holders

`Holding` is the pool with the frame that page `p` was returned in and the number of its holders: calls that
returned `p`, less `unpin_page` calls for `p` that returned true. `PinsCounted`: the pin count of `p` is that
number.

A page that `fetch_bpm_page` reads from disk has one pin from `new_bpm_page` and one of its own, so that the count
is one too many from then on. The number is right for a page that `allocate_new_page` brought in, unless a stale
entry of the page table leads to its frame: `new_bpm_page` returns a page that it finds without a pin, and
`unpin_page` takes the pin of the page that has the frame now.
-/

namespace SomeDB

open Lib

/-- The pool, the frame that page `p` was returned in, and the number of its holders. -/
structure Holding where
  bpm : BufferPoolManager
  home : Option FrameId
  holders : Int

/-- A call that gives a page to its caller or takes it back. -/
inductive PinOp where
  | fetch (pid : PageId)
  | allocate
  | unpin (pid : PageId) (isDirty : Bool)

/-- The page in the frame has the id `p`. -/
def holdsPage (bpm : BufferPoolManager) (p : PageId) (fid : FrameId) : Bool :=
  bpm.pages[fid]?.any fun page => page.id == p

def Holding.onBpm {α : Type} (m : BpmM α) : Prog Fault Holding α :=
  Prog.zoom (·.bpm) (fun s bpm => { s with bpm }) m

/-- A call has returned the page in the frame `fid`. -/
def Holding.returned (p : PageId) (fid : FrameId) (s : Holding) : Holding :=
  if holdsPage s.bpm p fid then { s with home := some fid, holders := s.holders + 1 } else s

/-- The call, and the holders of page `p` after it. -/
def pinOp (p : PageId) : PinOp → Prog Fault Holding Unit
  | .fetch pid => do
    let fid ← Holding.onBpm (fetchBpmPage pid)
    Prog.modify (Holding.returned p fid)
  | .allocate => do
    let fid ← Holding.onBpm allocateNewPage
    Prog.modify (Holding.returned p fid)
  | .unpin pid isDirty => do
    let unpinned ← Holding.onBpm (unpinPage pid isDirty)
    if unpinned && pid == p then Prog.modify fun s => { s with holders := s.holders - 1 }
    else pure ()

/-- The pin count of page `p`, in the frame it was returned in and in the one it is found in, is the number of its
holders. -/
def PinsCounted (p : PageId) (s : Holding) : Prop := ∀ f page, s.home = some f ∨ frameOf s.bpm p = some f →
  s.bpm.pages[f]? = some page → page.pinCount = s.holders

/-- A page that was returned is still in its frame and in the page table. -/
def Stays (p : PageId) (s : Holding) : Prop := ∀ f, s.home = some f → holdsPage s.bpm p f = true ∧ Present s.bpm p

/-- The call leaves the page where it is: it neither flushes nor evicts it. -/
def KeepsPage (p : PageId) (s : Holding) (op : PinOp) : Prop := ∀ u s', pinOp p op s = (.ok u, s') → Stays p s'

/-- When a call counts its pins right. Page `p` is fetched only while it is resident. The number of a new page is
not that of an entry that leads to the frame of `p`, and no other page is unpinned by such an entry. -/
def CountsPins (p : PageId) (s : Holding) : PinOp → Prop
  | .fetch pid => pid = p → Present s.bpm p
  | .allocate =>
    match (newBtreeIndexPage false s.bpm.diskManager).1 with
    | .ok pid => ∀ f, frameOf s.bpm pid = some f → holdsPage s.bpm p f = false
    | .error _ => True
  | .unpin pid _ => pid = p ∨ ∀ f, frameOf s.bpm pid = some f →
      holdsPage s.bpm p f = false ∨ pinsOf s.bpm pid = some 0

/-- The holders of page `p` have its pins, and only entries of `p`'s frame lead to `p`. -/
structure Counted (p : PageId) (s : Holding) : Prop where
  away : s.home = none → s.holders = 0
  held : ∀ f, s.home = some f → ∃ page, s.bpm.pages[f]? = some page ∧ page.id = p ∧ page.pinCount = s.holders
  only : ∀ q f, frameOf s.bpm q = some f → holdsPage s.bpm p f = true → s.home = some f
  frame : ∀ f, frameOf s.bpm p = some f → s.home = some f

theorem Counted.pinsCounted {p : PageId} {s : Holding} (h : Counted p s) : PinsCounted p s := by
  intro f page hf hpage
  have hhome : s.home = some f := hf.elim id (h.frame f)
  obtain ⟨page', hpage', -, hcount⟩ := h.held f hhome
  rw [hpage] at hpage'
  cases hpage'
  exact hcount

/-! ## Frames that a call takes -/

section Frames

variable {bpm bpm' : BufferPoolManager} {p q : PageId} {f g : FrameId} {page : BpmPage}

theorem holdsPage_of_page (h : bpm.pages[f]? = some page) : holdsPage bpm p f = (page.id == p) := by
  rw [holdsPage, h]
  rfl

theorem holdsPage_set_self (hf : f < bpm.pages.length) (hpages : bpm'.pages = bpm.pages.set f page) :
    holdsPage bpm' p f = (page.id == p) :=
  holdsPage_of_page (by rw [hpages, List.getElem?_set_self hf])

theorem holdsPage_set_ne (hpages : bpm'.pages = bpm.pages.set f page) (hg : g ≠ f) :
    holdsPage bpm' p g = holdsPage bpm p g := by
  unfold holdsPage
  rw [hpages, List.getElem?_set_ne (Ne.symm hg)]

/-- A flush can only take frames out of the page table. -/
theorem Flushed.frames {b : Bool} (h : Flushed q bpm b bpm') : bpm'.pages = bpm.pages ∧
    ∀ p, frameOf bpm' p = frameOf bpm p ∨ frameOf bpm' p = none := by
  cases h with
  | absent hframe => exact ⟨rfl, fun p => .inl rfl⟩
  | written hframe hpage htable hremoved hreplacer =>
    obtain ⟨hself, hother⟩ := found_hashRemove htable hremoved
    refine ⟨rfl, fun p => ?_⟩
    by_cases hkey : sprintfD p = sprintfD q
    · rw [← hkey] at hself
      rcases hself with habsent | ⟨e, herror⟩
      · exact .inr (frameIn_of_absent habsent)
      · exact .inr (frameIn_of_error herror)
    · rcases hother _ hkey with hsame | ⟨e, herror⟩
      · exact .inl (frameIn_congr hsame)
      · exact .inr (frameIn_of_error herror)

theorem FrameTaken.frames {o : Option FrameId} (h : FrameTaken bpm o bpm') : bpm'.pages = bpm.pages ∧
    ∀ p, frameOf bpm' p = frameOf bpm p ∨ frameOf bpm' p = none := by
  cases h with
  | free hfree => exact ⟨rfl, fun p => .inl rfl⟩
  | noFrame hfree hevict => exact ⟨rfl, fun p => .inl rfl⟩
  | clean hfree hevict hpage hdirty => exact ⟨rfl, fun p => .inl rfl⟩
  | dirty hfree hevict hpage hdirty hflush => exact hflush.frames

/-- A call has put page `q` into the frame `g`, with `c` pins. -/
structure Placed (q : PageId) (c : Int) (bpm : BufferPoolManager) (g : FrameId) (bpm' : BufferPoolManager) : Prop where
  bound : g < bpm.pages.length
  pages : ∃ page, bpm'.pages = bpm.pages.set g page ∧ page.id = q ∧ page.pinCount = c
  frame : frameOf bpm' q = some g
  others : ∀ p, p ≠ q → frameOf bpm' p = frameOf bpm p ∨ frameOf bpm' p = none

theorem Placed.holds {c : Int} (h : Placed q c bpm g bpm') (p : PageId) : holdsPage bpm' p g = (q == p) := by
  obtain ⟨page, hpages, hid, -⟩ := h.pages
  rw [holdsPage_set_self h.bound hpages, hid]

theorem Paged.placed (h : Paged q bpm (some g) bpm') (hframe : frameOf bpm q = none) : Placed q 1 bpm g bpm' := by
  have hfound := h.frameOf_eq
  cases h with
  | found hfound' => cases hframe.symm.trans hfound'
  | added _ htaken hg hlen htable hreplacer =>
    obtain ⟨hpages, hframes⟩ := htaken.frames
    rw [hpages] at hg
    refine ⟨hg, ⟨⟨Block.zero, q, 1, false⟩, by rw [← hpages], rfl, rfl⟩, hfound, fun p hp => ?_⟩
    have hsame := frameIn_congr (found_hashInsert_ne htable (sprintfD_ne hp))
    exact (hframes p).imp hsame.trans hsame.trans

/-- The loop of `allocate_new_page` finds the page or puts it into a frame. -/
theorem PagedWithin.placed {n : Nat} (h : PagedWithin q n bpm g bpm') :
    (frameOf bpm q = some g ∧ bpm'.pages = bpm.pages ∧ bpm'.pageTable = bpm.pageTable) ∨
      (frameOf bpm q = none ∧ Placed q 1 bpm g bpm') := by
  induction h with
  | @done n bpm bpm' g hpaged =>
    cases hframe : frameOf bpm q with
    | some f =>
      cases hpaged with
      | found hframe' => exact .inl ⟨hframe.symm.trans hframe', rfl, rfl⟩
      | added hframe' => cases hframe.symm.trans hframe'
    | none => exact .inr ⟨rfl, hpaged.placed hframe⟩
  | again hpaged hrest ih =>
    cases hpaged with
    | noFrame hframe htaken =>
      cases htaken with
      | noFrame hfree hevict =>
        rcases ih with hfound | ⟨-, hplaced⟩
        · exact .inl hfound
        · exact .inr ⟨hframe, hplaced.bound, hplaced.pages, hplaced.frame, hplaced.others⟩

theorem Fetched.placed (h : Fetched q bpm g bpm') :
    (∃ page, frameOf bpm q = some g ∧ bpm.pages[g]? = some page ∧
      bpm' = { bpm with pages := bpm.pages.set g page.pin }) ∨ (¬ Present bpm q ∧ Placed q 2 bpm g bpm') := by
  cases h with
  | hit hframe hpage => exact .inl ⟨_, hframe, hpage, rfl⟩
  | @miss page' data bpm₁ hframe habsent hpaged hpage hdata =>
    obtain ⟨hg, ⟨page₁, hpages, hid, hcount⟩, hself, hothers⟩ := hpaged.placed hframe
    rw [hpages, List.getElem?_set_self hg] at hpage
    cases hpage
    have hpin : page'.pin.pinCount = 2 := congrArg (· + 1) hcount
    refine .inr ⟨fun hpresent => hpresent habsent, hg, ⟨{ page'.pin with data }, ?_, hid, hpin⟩, hself, hothers⟩
    simp only [hpages, List.set_set]

/-- `unpin_page` takes one pin from the page in the frame it finds, or it does nothing. -/
theorem Unpinned.frames {isDirty b : Bool} (h : Unpinned q isDirty bpm b bpm') : (b = false ∧ bpm' = bpm) ∨
    (b = true ∧ ∃ f page page', frameOf bpm q = some f ∧ bpm.pages[f]? = some page ∧ page.pinCount ≠ 0 ∧
      bpm'.pages = bpm.pages.set f page' ∧ bpm'.pageTable = bpm.pageTable ∧ page'.id = page.id ∧
      page'.pinCount = page.pinCount - 1) := by
  cases h with
  | absent hframe => exact .inl ⟨rfl, rfl⟩
  | zero hframe hpage hpin => exact .inl ⟨rfl, rfl⟩
  | @last f page r hframe hpage hpin hreplacer =>
    exact .inr ⟨rfl, f, page, _, hframe, hpage, by omega, rfl, rfl, rfl, by simp only [hpin]; rfl⟩
  | @more f page hframe hpage hzero hone => exact .inr ⟨rfl, f, page, _, hframe, hpage, hzero, rfl, rfl, rfl, rfl⟩

/-- A turn of the loop that returns has read the bucket of the page. -/
theorem newBpmPageLoop_absent {n : Nat} (h : newBpmPageLoop q n bpm = (.ok g, bpm')) (hframe : frameOf bpm q = none) :
    ¬ Present bpm q := by
  cases n with
  | zero => cases h
  | succ n =>
    rw [newBpmPageLoop] at h
    obtain ⟨o, bpm₁, hpage, -⟩ := Prog.bind_eq_ok h
    rw [newBpmPage] at hpage
    obtain ⟨found, bpm₂, hfind, -⟩ := Prog.bind_eq_ok hpage
    obtain ⟨hframe', -⟩ := findFrame_eq_ok hfind
    rw [hframe] at hframe'
    subst hframe'
    exact fun hpresent => hpresent (found_of_findFrame hfind)

end Frames

section Steps

variable {p q : PageId} {s s' : Holding} {bpm' : BufferPoolManager} {f g : FrameId} {page page' : BpmPage}

/-- The page in one frame got other pins, and the holders of `p` changed by as many if it is the frame of `p`. -/
theorem Counted.setPins (h : Counted p s) (hpage : s.bpm.pages[f]? = some page)
    (hpages : bpm'.pages = s.bpm.pages.set f page') (htable : bpm'.pageTable = s.bpm.pageTable)
    (hid : page'.id = page.id) {k : Int}
    (hk : k = if page.id = p then s.holders + (page'.pinCount - page.pinCount) else s.holders)
    (hhome : page.id = p → s.home = some f) : Counted p ⟨bpm', s.home, k⟩ := by
  have hf := (List.getElem?_eq_some_iff.mp hpage).1
  have hframes : ∀ q, frameOf bpm' q = frameOf s.bpm q := fun q => by rw [frameOf, htable]
  have hholds : ∀ g, holdsPage bpm' p g = holdsPage s.bpm p g := by
    intro g
    by_cases hg : g = f
    · rw [hg, holdsPage_set_self hf hpages, holdsPage_of_page hpage, hid]
    · exact holdsPage_set_ne hpages hg
  refine ⟨fun haway => ?_, fun g hg => ?_, fun q g hframe hp => ?_, fun g hframe => ?_⟩
  · have hne : page.id ≠ p := fun he => by
      rw [haway] at hhome
      cases hhome he
    rw [hk, if_neg hne]
    exact h.away haway
  · obtain ⟨old, hold, holdid, hcount⟩ := h.held g hg
    by_cases hgf : g = f
    · subst hgf
      rw [hpage] at hold
      cases hold
      refine ⟨page', ?_, hid.trans holdid, ?_⟩
      · show bpm'.pages[g]? = some page'
        rw [hpages, List.getElem?_set_self hf]
      · rw [hk, if_pos holdid, ← hcount]
        show page'.pinCount = page.pinCount + (page'.pinCount - page.pinCount)
        omega
    · have hne : page.id ≠ p := fun he => hgf (Option.some.inj (hg.symm.trans (hhome he)))
      refine ⟨old, ?_, holdid, ?_⟩
      · show bpm'.pages[g]? = some old
        rw [hpages, List.getElem?_set_ne (Ne.symm hgf)]
        exact hold
      · rw [hk, if_neg hne]
        exact hcount
  · exact h.only q g ((hframes q).symm.trans hframe) ((hholds g).symm.trans hp)
  · exact h.frame g ((hframes p).symm.trans hframe)

/-- Another page was put into a frame, and page `p` is still in its own. -/
theorem Counted.place {c : Int} (h : Counted p s) (hplaced : Placed q c s.bpm g bpm') (hq : q ≠ p)
    (hstays : ∀ f, s.home = some f → holdsPage bpm' p f = true) : Counted p ⟨bpm', s.home, s.holders⟩ := by
  have hnot : holdsPage bpm' p g = false := (hplaced.holds p).trans (beq_false_of_ne hq)
  have hne : ∀ f, holdsPage bpm' p f = true → f ≠ g := fun f hf he => by
    rw [he, hnot] at hf
    cases hf
  obtain ⟨hg, ⟨page, hpages, hid, -⟩, hself, hothers⟩ := hplaced
  have hbefore : ∀ q' f, q' ≠ q → frameOf bpm' q' = some f → frameOf s.bpm q' = some f := by
    intro q' f hq' hf
    rcases hothers q' hq' with hsame | hnone
    · exact hsame.symm.trans hf
    · rw [hnone] at hf
      cases hf
  refine ⟨h.away, fun f hf => ?_, fun q' f hframe hp => ?_, fun f hframe => ?_⟩
  · obtain ⟨old, hold, hrest⟩ := h.held f hf
    refine ⟨old, ?_, hrest⟩
    show bpm'.pages[f]? = some old
    rw [hpages, List.getElem?_set_ne (Ne.symm (hne f (hstays f hf)))]
    exact hold
  · have hq' : q' ≠ q := fun he => hne f hp (Option.some.inj (hframe.symm.trans (he ▸ hself)))
    exact h.only q' f (hbefore q' f hq' hframe) ((holdsPage_set_ne hpages (hne f hp)).symm.trans hp)
  · exact h.frame f (hbefore p f (Ne.symm hq) hframe)

/-- Page `p` was put into a frame for the first time. -/
theorem Counted.bring (h : Counted p s) (hplaced : Placed p 1 s.bpm g bpm') (haway : s.home = none) :
    Counted p ⟨bpm', some g, s.holders + 1⟩ := by
  obtain ⟨hg, ⟨page, hpages, hid, hcount⟩, hself, hothers⟩ := hplaced
  have honly : ∀ q f, frameOf bpm' q = some f → holdsPage bpm' p f = true → g = f := by
    intro q f hframe hp
    by_contra hfg
    have hq : q ≠ p := fun he => hfg (Option.some.inj ((he ▸ hself).symm.trans hframe))
    have hbefore : frameOf s.bpm q = some f := by
      rcases hothers q hq with hsame | hnone
      · exact hsame.symm.trans hframe
      · rw [hnone] at hframe
        cases hframe
    have hhome := h.only q f hbefore ((holdsPage_set_ne hpages (Ne.symm hfg)).symm.trans hp)
    rw [haway] at hhome
    cases hhome
  refine ⟨fun hnone => (Option.some_ne_none g hnone).elim, fun f hf => ?_,
    fun q f hframe hp => congrArg some (honly q f hframe hp), fun f hframe => hself.symm.trans hframe⟩
  obtain rfl := Option.some.inj hf
  refine ⟨page, ?_, hid, ?_⟩
  · show bpm'.pages[g]? = some page
    rw [hpages, List.getElem?_set_self hg]
  · show page.pinCount = s.holders + 1
    rw [hcount, h.away haway]
    rfl

/-- Nothing of this changes with the replacer, the free list and the disk. -/
theorem Counted.congr (h : Counted p s) (hpages : bpm'.pages = s.bpm.pages)
    (htable : bpm'.pageTable = s.bpm.pageTable) : Counted p ⟨bpm', s.home, s.holders⟩ := by
  have hframes : ∀ q, frameOf bpm' q = frameOf s.bpm q := fun q => by rw [frameOf, htable]
  have hholds : ∀ f, holdsPage bpm' p f = holdsPage s.bpm p f := fun f => by rw [holdsPage, hpages, holdsPage]
  refine ⟨h.away, fun f hf => ?_, fun q f hframe hp => ?_, fun f hframe => ?_⟩
  · obtain ⟨page, hpage, hrest⟩ := h.held f hf
    exact ⟨page, (congrArg (·[f]?) hpages).trans hpage, hrest⟩
  · exact h.only q f ((hframes q).symm.trans hframe) ((hholds f).symm.trans hp)
  · exact h.frame f ((hframes p).symm.trans hframe)

theorem returned_of_holds (h : holdsPage s.bpm p f = true) :
    s.returned p f = ⟨s.bpm, some f, s.holders + 1⟩ := if_pos h

theorem returned_of_not (h : holdsPage s.bpm p f = false) : s.returned p f = s := if_neg (by rw [h]; decide)

/-- What keeps the count right, from one call to the next. -/
structure HoldingInv (p : PageId) (s : Holding) : Prop where
  counted : Counted p s
  stays : Stays p s

/-- The page in a frame that the page table leads to is returned as it is, with `c` more pins. -/
theorem Counted.again {c : Int} (h : Counted p s) (hframe : frameOf s.bpm q = some f)
    (hpage : s.bpm.pages[f]? = some page) (hpages : bpm'.pages = s.bpm.pages.set f page')
    (htable : bpm'.pageTable = s.bpm.pageTable) (hid : page'.id = page.id) (hpins : page'.pinCount = page.pinCount + c)
    (hc : page.id = p → c = 1) : Counted p (Holding.returned p f ⟨bpm', s.home, s.holders⟩) := by
  have hholds : holdsPage s.bpm p f = (page.id == p) := holdsPage_of_page hpage
  have hholds' : holdsPage bpm' p f = (page.id == p) := by
    rw [holdsPage_set_self (List.getElem?_eq_some_iff.mp hpage).1 hpages, hid]
  by_cases hp : page.id = p
  · have hhome : s.home = some f := h.only q f hframe (by rw [hholds, hp, beq_self_eq_true])
    rw [returned_of_holds (hholds'.trans (by rw [hp, beq_self_eq_true])), ← hhome]
    refine h.setPins hpage hpages htable hid ?_ fun _ => hhome
    rw [if_pos hp, hpins, hc hp]
    show s.holders + 1 = s.holders + (page.pinCount + 1 - page.pinCount)
    omega
  · rw [returned_of_not (hholds'.trans (beq_false_of_ne hp))]
    exact h.setPins hpage hpages htable hid (if_neg hp).symm fun he => absurd he hp

theorem fetch_counted {pid : PageId} (h : HoldingInv p s) (hfetched : Fetched pid s.bpm f bpm')
    (hc : CountsPins p s (.fetch pid)) (hstays : Stays p (Holding.returned p f ⟨bpm', s.home, s.holders⟩)) :
    Counted p (Holding.returned p f ⟨bpm', s.home, s.holders⟩) := by
  rcases hfetched.placed with ⟨page, hframe, hpage, rfl⟩ | ⟨habsent, hplaced⟩
  · exact h.counted.again hframe hpage rfl rfl rfl rfl fun _ => rfl
  · have hne : pid ≠ p := fun he => habsent (he ▸ hc he)
    rw [returned_of_not ((hplaced.holds p).trans (beq_false_of_ne hne))] at hstays ⊢
    exact h.counted.place hplaced hne fun f hf => (hstays f hf).1

theorem allocateNewPage_placed {bpm : BufferPoolManager} (h : allocateNewPage bpm = (.ok g, bpm')) :
    ∃ pid, (newBtreeIndexPage false bpm.diskManager).1 = .ok pid ∧
      ((frameOf bpm pid = some g ∧ bpm'.pages = bpm.pages ∧ bpm'.pageTable = bpm.pageTable) ∨
        (¬ Present bpm pid ∧ Placed pid 1 bpm g bpm')) := by
  rw [allocateNewPage] at h
  obtain ⟨pid, bpm₁, hnew, h₁⟩ := Prog.bind_eq_ok h
  obtain ⟨d, hd, rfl⟩ := Prog.zoom_eq_ok hnew
  refine ⟨pid, by rw [hd], ?_⟩
  rcases (newBpmPageLoop_eq_ok h₁).placed with hfound | ⟨hframe, hplaced⟩
  · exact .inl hfound
  · have habsent := newBpmPageLoop_absent h₁ hframe
    exact .inr ⟨habsent, hplaced.bound, hplaced.pages, hplaced.frame, hplaced.others⟩

theorem allocate_counted (h : HoldingInv p s) (hrun : allocateNewPage s.bpm = (.ok f, bpm'))
    (hc : CountsPins p s .allocate) (hstays : Stays p (Holding.returned p f ⟨bpm', s.home, s.holders⟩)) :
    Counted p (Holding.returned p f ⟨bpm', s.home, s.holders⟩) := by
  obtain ⟨pid, hnew, hplaces⟩ := allocateNewPage_placed hrun
  simp only [CountsPins, hnew] at hc
  rcases hplaces with ⟨hframe, hpages, htable⟩ | ⟨habsent, hplaced⟩
  · have hnot : holdsPage bpm' p f = false := by
      rw [holdsPage, hpages]
      exact hc f hframe
    rw [returned_of_not hnot]
    exact h.counted.congr hpages htable
  · by_cases hp : pid = p
    · subst hp
      rw [returned_of_holds ((hplaced.holds pid).trans (beq_self_eq_true pid))]
      refine h.counted.bring hplaced ?_
      cases hhome : s.home with
      | none => rfl
      | some g => exact absurd (h.stays g hhome).2 habsent
    · rw [returned_of_not ((hplaced.holds p).trans (beq_false_of_ne hp))] at hstays ⊢
      exact h.counted.place hplaced hp fun g hg => (hstays g hg).1

/-- The frame of page `p` loses a pin just when a holder gives the page back. -/
theorem unpin_counted {pid : PageId} {isDirty b : Bool} (h : HoldingInv p s)
    (hunpinned : Unpinned pid isDirty s.bpm b bpm') (hc : CountsPins p s (.unpin pid isDirty)) :
    Counted p ⟨bpm', s.home, if (b && pid == p) = true then s.holders - 1 else s.holders⟩ := by
  rcases hunpinned.frames with
    ⟨rfl, rfl⟩ | ⟨rfl, f, page, page', hframe, hpage, hzero, hpages, htable, hid, hpins⟩
  · exact h.counted
  · have hiff : page.id = p ↔ pid = p := by
      constructor
      · intro hp
        rcases hc with heq | hother
        · exact heq
        · rcases hother f hframe with hnot | hpinned
          · rw [holdsPage_of_page hpage, hp, beq_self_eq_true] at hnot
            cases hnot
          · rw [pinsOf, hframe, Option.bind_some, hpage] at hpinned
            exact absurd (Option.some.inj hpinned) hzero
      · rintro rfl
        obtain ⟨old, hold, holdid, -⟩ := h.counted.held f (h.counted.frame f hframe)
        rw [hpage] at hold
        cases hold
        exact holdid
    refine h.counted.setPins hpage hpages htable hid ?_ fun hp => ?_
    · by_cases hp : pid = p
      · rw [if_pos (hiff.mpr hp), if_pos (by rw [Bool.true_and, hp, beq_self_eq_true]), hpins]
        omega
      · rw [if_neg (fun he => hp (hiff.mp he)), if_neg (by rw [Bool.true_and, beq_false_of_ne hp]; decide)]
    · exact h.counted.frame f (hiff.mp hp ▸ hframe)

theorem pinOp_counted {op : PinOp} {u : Unit} (h : HoldingInv p s) (hrun : pinOp p op s = (.ok u, s'))
    (hc : CountsPins p s op) (hstays : Stays p s') : Counted p s' := by
  cases op with
  | fetch pid =>
    obtain ⟨f, s₁, hcall, hret⟩ := Prog.bind_eq_ok hrun
    obtain ⟨bpm', hfetch, rfl⟩ := Prog.zoom_eq_ok hcall
    cases hret
    exact fetch_counted h (fetchBpmPage_eq_ok hfetch) hc hstays
  | allocate =>
    obtain ⟨f, s₁, hcall, hret⟩ := Prog.bind_eq_ok hrun
    obtain ⟨bpm', hallocate, rfl⟩ := Prog.zoom_eq_ok hcall
    cases hret
    exact allocate_counted h hallocate hc hstays
  | unpin pid isDirty =>
    obtain ⟨b, s₁, hcall, hret⟩ := Prog.bind_eq_ok hrun
    obtain ⟨bpm', hunpin, rfl⟩ := Prog.zoom_eq_ok hcall
    have hcounted := unpin_counted h (unpinPage_eq_ok hunpin) hc
    split at hret
    · next hb =>
      cases hret
      rwa [if_pos hb] at hcounted
    · next hb =>
      cases hret
      rwa [if_neg hb] at hcounted

end Steps

/-- A pool in which no page has been returned. -/
def Holding.start (bpm : BufferPoolManager) : Holding := ⟨bpm, none, 0⟩

theorem HoldingInv.init (p : PageId) (poolSize : Nat) (d : Disk) :
    HoldingInv p (Holding.start (newBpm poolSize d)) := by
  have hnone : ∀ q, frameOf (newBpm poolSize d) q = none := by
    refine fun q => frameIn_of_freed (List.all_eq_true.mpr fun b hb => ?_) q
    rw [List.eq_of_mem_replicate hb]
    rfl
  refine ⟨⟨fun _ => rfl, fun f hf => ?_, fun q f hframe => ?_, fun f hframe => ?_⟩, fun f hf => ?_⟩
  · cases hf
  · cases (hnone q).symm.trans hframe
  · cases (hnone p).symm.trans hframe
  · cases hf

/-- In every state that a run of such calls reaches, the pin count of page `p` is the number of its holders. -/
theorem run_pinsCounted {p : PageId} {poolSize : Nat} {d : Disk} {ops : List PinOp} {us : List Unit} {s : Holding}
    (hkeeps : Prog.Meets (pinOp p) (KeepsPage p) ops (Holding.start (newBpm poolSize d)))
    (hcounts : Prog.Meets (pinOp p) (CountsPins p) ops (Holding.start (newBpm poolSize d)))
    (hrun : Prog.runAll (pinOp p) ops (Holding.start (newBpm poolSize d)) = (.ok us, s)) : PinsCounted p s := by
  have hinv : HoldingInv p s := Prog.runAll_inv_of_ok (fun _ s => HoldingInv p s)
    (fun _ s op u s' h hop hstep =>
      have hstays := hop.1 u s' hstep
      ⟨pinOp_counted h hstep hop.2 hstays, hstays⟩)
    (HoldingInv.init p poolSize d) (hkeeps.and hcounts) hrun
  exact hinv.counted.pinsCounted

instance (bpm : BufferPoolManager) (p : PageId) : Decidable (Present bpm p) :=
  match h : found bpm.pageTable (sprintfD p) with
  | .ok none => isFalse fun hpresent => hpresent h
  | .ok (some el) => isTrue fun habsent => by rw [h] at habsent; cases habsent
  | .error e => isTrue fun habsent => by rw [h] at habsent; cases habsent

instance (p : PageId) (s : Holding) : Decidable (Stays p s) :=
  match h : s.home with
  | none => isTrue fun f hf => by rw [h] at hf; cases hf
  | some f => decidable_of_iff (holdsPage s.bpm p f = true ∧ Present s.bpm p)
      ⟨fun hstays g hg => by rw [h] at hg; cases hg; exact hstays, fun hstays => hstays f h⟩

instance (p : PageId) (s : Holding) (op : PinOp) : Decidable (KeepsPage p s op) :=
  match h : pinOp p op s with
  | (.ok u, s') => decidable_of_iff (Stays p s')
      ⟨fun hstays u' t ht => by rw [h] at ht; cases ht; exact hstays, fun hkeeps => hkeeps u s' h⟩
  | (.error e, s') => isTrue fun u' t ht => by rw [h] at ht; cases ht

/-- What holds of the frame of a page, if it has one. -/
instance (bpm : BufferPoolManager) (pid : PageId) (C : FrameId → Prop) [∀ f, Decidable (C f)] :
    Decidable (∀ f, frameOf bpm pid = some f → C f) :=
  match h : frameOf bpm pid with
  | none => isTrue fun f hf => by cases hf
  | some f => decidable_of_iff (C f) ⟨fun hC g hg => Option.some.inj hg ▸ hC, fun hall => hall f rfl⟩

instance (p : PageId) (s : Holding) : ∀ op, Decidable (CountsPins p s op)
  | .fetch pid => decidable_of_iff (pid = p → Present s.bpm p) Iff.rfl
  | .allocate =>
    match h : (newBtreeIndexPage false s.bpm.diskManager).1 with
    | .ok pid => decidable_of_iff (∀ f, frameOf s.bpm pid = some f → holdsPage s.bpm p f = false)
        (by simp only [CountsPins, h])
    | .error e => isTrue (by simp only [CountsPins, h])
  | .unpin pid _ => decidable_of_iff (pid = p ∨ ∀ f, frameOf s.bpm pid = some f →
      holdsPage s.bpm p f = false ∨ pinsOf s.bpm pid = some 0) Iff.rfl

/-- Page 1 is allocated and fetched again, page 0 is fetched, and one holder of page 1 gives it back. -/
def countedOps : List PinOp := [.allocate, .fetch 1, .fetch 0, .unpin 1 true]

theorem run_pinsCounted_one : ∃ us s,
    Prog.runAll (pinOp 1) countedOps (Holding.start (newBpm 2 (createBtreeIndex 2))) = (.ok us, s) ∧
      PinsCounted 1 s := by
  obtain ⟨us, hrun⟩ := Prog.eq_ok_of_isOk (m := Prog.runAll (pinOp 1) countedOps)
    (s := Holding.start (newBpm 2 (createBtreeIndex 2))) (by decide)
  exact ⟨us, _, hrun, run_pinsCounted (by decide) (by decide) hrun⟩

/-- The first fetch of a page takes two pins. -/
theorem run_pinsCounted_fails : ∃ us s,
    Prog.Meets (pinOp 0) (KeepsPage 0) [.fetch 0] (Holding.start (newBpm 1 (createBtreeIndex 2))) ∧
      Prog.runAll (pinOp 0) [.fetch 0] (Holding.start (newBpm 1 (createBtreeIndex 2))) = (.ok us, s) ∧
      ¬ PinsCounted 0 s := by
  obtain ⟨us, hrun⟩ := Prog.eq_ok_of_isOk (m := Prog.runAll (pinOp 0) [.fetch 0])
    (s := Holding.start (newBpm 1 (createBtreeIndex 2))) (by decide)
  refine ⟨us, _, by decide, hrun, fun h => ?_⟩
  have hcount := h 0 _ (.inl (by decide)) rfl
  revert hcount
  decide

end SomeDB
