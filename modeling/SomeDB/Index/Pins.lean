import SomeDB.Disk.BpmHolds
import SomeDB.Index.Descent
import SomeDB.Index.NodeInsert

/-!
# The pins of index operations

The index over the buffer pool itself. No index function unpins a page it fetched; a page is released only
when it is flushed, as `flush_page` drops it from the pool whatever its pin count is. So an operation
leaves the pins as they were if it flushes every page that it fetched.
-/

namespace SomeDB

open Lib

/-- The buffer pool. `flush_node` looks the frame up once more, under `std::to_string` of the page id. -/
instance : PageStore BufferPoolManager where
  fetchBpmPage pid := do
    let fid ← fetchBpmPage pid
    let page ← pageAt fid
    pure (page.id, page.data)
  flushNode pid data := do
    let fid ← fetchBpmPage pid
    let page ← pageAt fid
    let found ← onPageTable (hashFind true (sprintfU page.id.toNat))
    let fid ← Prog.lift (deref found)
    writeToFrame fid data
    let _ ← flushPage pid
    pure ()
  onDisk p := onDiskManager p

abbrev PoolTree := BTree BufferPoolManager

section Calls

variable {b : BufferPoolManager} {ps : List PageId} {p : PageId} {t t' : PoolTree}

theorem PinsTaken.mono {qs : List PageId} {bpm : BufferPoolManager} (h : PinsTaken b ps bpm) (hsub : ps ⊆ qs) :
    PinsTaken b qs bpm :=
  ⟨h.toOwnFrames, fun q c hq => h.pins q c fun hmem => hq (hsub hmem)⟩

/-- The data of a frame changes. -/
theorem PinsTaken.write {bpm : BufferPoolManager} (h : PinsTaken b ps bpm) {g : FrameId} {page : BpmPage}
    (hpage : bpm.pages[g]? = some page) (data : Page) :
    PinsTaken b ps { bpm with pages := bpm.pages.set g { page with data, isDirty := true } } := by
  have hg := (List.getElem?_eq_some_iff.mp hpage).1
  refine ⟨⟨h.inj, h.used, fun q f page' hq hpage' => ?_⟩, fun q c hq hpins => h.pins q c hq ?_⟩
  · rcases getElem?_set_cases hpage' with ⟨rfl, rfl⟩ | ⟨-, hpage'⟩
    · exact h.ids q f page hq hpage
    · exact h.ids q f page' hq hpage'
  · rw [pinsOf] at hpins ⊢
    obtain ⟨f, hf, hpins⟩ := Option.bind_eq_some_iff.mp hpins
    have hf' : frameOf bpm q = some f := hf
    rw [hf', Option.bind_some]
    by_cases hfg : f = g
    · subst hfg
      simp only [List.getElem?_set_self hg, Option.map_some] at hpins
      rw [hpage, Option.map_some]
      exact hpins
    · simp only [List.getElem?_set_ne (Ne.symm hfg)] at hpins
      exact hpins

/-- A page is fetched while it is resident or there is a free frame. -/
theorem fetch_spec {r : PageId × Page} (hrun : BTree.fetch p t = (.ok r, t')) (h : PinsTaken b ps t.bpm)
    (hroom : ¬ Present t.bpm p → 1 ≤ freeFrames t.bpm) :
    r.1 = p ∧ contentOf t.bpm p = some r.2 ∧ ∃ f page bpm', FetchedTo p t.bpm f page bpm' ∧
      t' = { t with bpm := bpm' } := by
  rw [BTree.fetch, BTree.onBpm] at hrun
  obtain ⟨bpm', hfetch, rfl⟩ := Prog.zoom_eq_ok hrun
  obtain ⟨f, bpm₁, hcall, h₁⟩ := Prog.bind_eq_ok hfetch
  obtain ⟨page, bpm₂, hat, h₂⟩ := Prog.bind_eq_ok h₁
  obtain ⟨hpage, rfl⟩ := pageAt_eq_ok hat
  cases h₂
  obtain ⟨page', hto⟩ := (fetchBpmPage_eq_ok hcall).fetchedTo h hroom
  rw [hto.pages, List.getElem?_set_self hto.bound] at hpage
  cases hpage
  exact ⟨hto.id, hto.content, f, _, _, hto, rfl⟩

/-- A page is flushed while it is resident or there is a free frame. -/
theorem flush_spec {data : Page} {u : Unit} (hrun : BTree.flush p data t = (.ok u, t')) (h : PinsTaken b ps t.bpm)
    (hroom : ¬ Present t.bpm p → 1 ≤ freeFrames t.bpm) :
    ∃ bpm', t' = { t with bpm := bpm' } ∧ PinsTaken b (ps.filter (· ≠ p)) bpm' ∧
      (∀ q, q ≠ p → Present t.bpm q → Present bpm' q) ∧ 1 ≤ freeFrames bpm' ∧
      freeFrames t.bpm ≤ freeFrames bpm' ∧ (Present t.bpm p → freeFrames t.bpm + 1 ≤ freeFrames bpm') := by
  rw [BTree.flush, BTree.onBpm] at hrun
  obtain ⟨bpm', hflush, rfl⟩ := Prog.zoom_eq_ok hrun
  obtain ⟨f, bpm₁, hcall, h₁⟩ := Prog.bind_eq_ok hflush
  obtain ⟨page, bpm₂, hat, h₂⟩ := Prog.bind_eq_ok h₁
  obtain ⟨-, rfl⟩ := pageAt_eq_ok hat
  obtain ⟨page', hto⟩ := (fetchBpmPage_eq_ok hcall).fetchedTo h hroom
  have h' := hto.pinsTaken h
  obtain ⟨el, bpm₃, hfind, h₃⟩ := Prog.bind_eq_ok h₂
  obtain ⟨ht, hht, rfl⟩ := Prog.zoom_eq_ok hfind
  have hstate := hashFind_state true (sprintfU page.id.toNat) bpm₂.pageTable
  rw [hht] at hstate
  simp only at hstate
  subst hstate
  obtain ⟨g, -, h₄⟩ := Prog.lift_bind_eq_ok h₃
  obtain ⟨_, bpm₄, hwrite, h₅⟩ := Prog.bind_eq_ok h₄
  obtain ⟨old, hold, rfl⟩ := writeToFrame_eq_ok hwrite
  obtain ⟨_, bpm₅, hflushed, h₆⟩ := Prog.bind_eq_ok h₅
  cases h₆
  obtain ⟨htaken, hpresent, hfree⟩ := (flushPage_eq_ok hflushed).pinsTaken (h'.write hold data) hto.frame
  have hle := hto.freeFrames_le
  refine ⟨_, rfl, htaken.mono ?_, fun q hq hp => hpresent q hq (hto.present hp), ?_, ?_, fun hp => ?_⟩
  · intro q hq
    rw [List.mem_filter] at hq ⊢
    obtain ⟨hq, hne⟩ := hq
    refine ⟨?_, hne⟩
    rcases List.mem_cons.mp hq with rfl | hq
    · simp at hne
    · exact hq
  · rw [hfree]
    omega
  · rw [hfree]
    exact hle
  · have hsame := hto.freeFrames_of_present hp
    rw [hfree]
    exact (congrArg (· + 1) hsame).ge

end Calls

/-! ## The search -/

/-- The pages of a search are resident and hold its pins, and there are frames for those that it still has to
fetch. -/
structure Searching (b : BufferPoolManager) (ws ps : List PageId) (bpm : BufferPoolManager) : Prop
    extends PinsTaken b ps bpm where
  present : ∀ p ∈ ps, Present bpm p
  frames : FramesFor bpm ws

section Search

variable {b : BufferPoolManager} {ws ps : List PageId} {p : PageId} {t t' : PoolTree} {key : BTreeKey}

/-- The pages of the breadcrumbs. -/
abbrev crumbPages (crumbs : List Crumb) : List PageId := crumbs.map (·.1)

/-- The id that the search goes on with is the one it fetched. -/
theorem fetchNode_id {r : PageId × BTreePage} (hrun : BTree.fetchNode p t = (.ok r, t')) (h : OwnFrames t.bpm) :
    r.1 = p := by
  rw [BTree.fetchNode] at hrun
  obtain ⟨⟨id, data⟩, t₁, hfetch, h₁⟩ := Prog.bind_eq_ok hrun
  obtain ⟨node, -, h₂⟩ := Prog.lift_bind_eq_ok h₁
  cases h₂
  rw [BTree.fetch, BTree.onBpm] at hfetch
  obtain ⟨bpm', hread, rfl⟩ := Prog.zoom_eq_ok hfetch
  obtain ⟨f, bpm₁, hcall, h₃⟩ := Prog.bind_eq_ok hread
  obtain ⟨page, bpm₂, hat, h₄⟩ := Prog.bind_eq_ok h₃
  obtain ⟨hpage, rfl⟩ := pageAt_eq_ok hat
  cases h₄
  exact (fetchBpmPage_eq_ok hcall).id_eq h hpage

theorem fetchNode_spec {r : PageId × BTreePage} (hrun : BTree.fetchNode p t = (.ok r, t'))
    (h : Searching b ws ps t.bpm) (hp : p ∈ ws) :
    ∃ bpm', t' = { t with bpm := bpm' } ∧ Searching b ws (p :: ps) bpm' := by
  rw [BTree.fetchNode] at hrun
  obtain ⟨⟨id, data⟩, t₁, hfetch, h₁⟩ := Prog.bind_eq_ok hrun
  obtain ⟨node, -, h₂⟩ := Prog.lift_bind_eq_ok h₁
  cases h₂
  obtain ⟨-, -, f, page, bpm', hto, rfl⟩ := fetch_spec hfetch h.toPinsTaken (h.frames.room hp)
  refine ⟨bpm', rfl, ⟨hto.pinsTaken h.toPinsTaken, fun q hq => ?_, hto.framesFor h.frames hp⟩⟩
  rcases List.mem_cons.mp hq with rfl | hq
  · exact present_of_frame hto.frame
  · exact hto.present (h.present q hq)

/-- The pages that the scan has seen are those that it has seen when it ends. -/
theorem findLeafScan_pages {n i : Nat} {curr q : PageId} {temp node : BTreePage} {acc crumbs : List Crumb}
    (hrun : BTree.findLeafScan key n i curr temp acc t = (.ok (q, node, crumbs), t')) :
    curr :: crumbPages acc ⊆ q :: crumbPages crumbs := by
  induction n generalizing i curr temp acc t with
  | zero => cases hrun
  | succ n ih =>
    rcases findLeafScan_succ hrun with ⟨-, hr, -⟩ | ⟨_, _, -, -, ⟨-, hscan⟩ | ⟨_, child, t₁, -, hscan⟩⟩
    · cases hr
      exact List.Subset.refl _
    · exact ih hscan
    · exact List.Subset.trans (List.subset_cons_self ..) (ih hscan)

theorem findLeafLoop_pages {n : Nat} {curr q : PageId} {temp node : BTreePage} {acc crumbs : List Crumb}
    (hrun : BTree.findLeafLoop key n curr temp acc t = (.ok (q, node, crumbs), t')) :
    curr :: crumbPages acc ⊆ q :: crumbPages crumbs := by
  induction n generalizing curr temp acc t with
  | zero => cases hrun
  | succ n ih =>
    rcases findLeafLoop_succ hrun with ⟨-, hr, -⟩ | ⟨-, _, -, ⟨-, _, _, child, t₁, -, -, -, hloop⟩ |
      ⟨-, _, _, _, t₁, child, t₂, hscan, -, hloop⟩⟩
    · cases hr
      exact List.Subset.refl _
    · exact List.Subset.trans (List.subset_cons_self ..) (ih hloop)
    · exact List.Subset.trans (findLeafScan_pages hscan) (List.Subset.trans (List.subset_cons_self ..) (ih hloop))

/-- A child that the search goes on with is one of its pages. -/
theorem Searching.child {r : PageId × BTreePage} (hrun : BTree.fetchNode p t = (.ok r, t'))
    (h : Searching b ws ps t.bpm) {rest : List PageId} (hrest : r.1 :: rest ⊆ ws) :
    r.1 = p ∧ ∃ bpm', t' = { t with bpm := bpm' } ∧ Searching b ws (r.1 :: ps) bpm' := by
  obtain rfl := fetchNode_id hrun h.toOwnFrames
  exact ⟨rfl, fetchNode_spec hrun h (hrest (List.mem_cons_self ..))⟩

theorem findLeafScan_spec {n i : Nat} {curr q : PageId} {temp node : BTreePage} {acc crumbs : List Crumb}
    (hrun : BTree.findLeafScan key n i curr temp acc t = (.ok (q, node, crumbs), t'))
    (h : Searching b ws (curr :: crumbPages acc ++ ps) t.bpm) (hws : q :: crumbPages crumbs ⊆ ws) :
    ∃ bpm', t' = { t with bpm := bpm' } ∧ Searching b ws (q :: crumbPages crumbs ++ ps) bpm' := by
  induction n generalizing i curr temp acc t with
  | zero => cases hrun
  | succ n ih =>
    rcases findLeafScan_succ hrun with ⟨-, hr, rfl⟩ | ⟨_, _, -, -, ⟨-, hscan⟩ | ⟨_, child, t₁, hchild, hscan⟩⟩
    · cases hr
      exact ⟨_, rfl, h⟩
    · exact ih hscan h
    · obtain ⟨-, bpm', rfl, h'⟩ := h.child hchild (List.Subset.trans (findLeafScan_pages hscan) hws)
      obtain ⟨bpm'', hend, h''⟩ := ih hscan h'
      exact ⟨bpm'', hend, h''⟩

theorem findLeafLoop_spec {n : Nat} {curr q : PageId} {temp node : BTreePage} {acc crumbs : List Crumb}
    (hrun : BTree.findLeafLoop key n curr temp acc t = (.ok (q, node, crumbs), t'))
    (h : Searching b ws (curr :: crumbPages acc ++ ps) t.bpm) (hws : q :: crumbPages crumbs ⊆ ws) :
    ∃ bpm', t' = { t with bpm := bpm' } ∧ Searching b ws (q :: crumbPages crumbs ++ ps) bpm' := by
  induction n generalizing curr temp acc t with
  | zero => cases hrun
  | succ n ih =>
    rcases findLeafLoop_succ hrun with ⟨-, hr, rfl⟩ | ⟨-, _, -, ⟨-, _, _, child, t₁, -, -, hchild, hloop⟩ |
      ⟨-, _, _, _, t₁, child, t₂, hscan, hchild, hloop⟩⟩
    · cases hr
      exact ⟨_, rfl, h⟩
    · obtain ⟨-, bpm', rfl, h'⟩ := h.child hchild (List.Subset.trans (findLeafLoop_pages hloop) hws)
      obtain ⟨bpm'', hend, h''⟩ := ih hloop h'
      exact ⟨bpm'', hend, h''⟩
    · have hrest := List.Subset.trans (findLeafLoop_pages hloop) hws
      have hsub := List.Subset.trans (List.subset_cons_self ..) hrest
      obtain ⟨bpm₁, rfl, h'⟩ := findLeafScan_spec hscan h hsub
      obtain ⟨-, bpm₂, rfl, h''⟩ := h'.child hchild hrest
      obtain ⟨bpm₃, hend, h₄⟩ := ih hloop h''
      exact ⟨bpm₃, hend, h₄⟩

/-- What every node is like that was read from a page. -/
def Read (n : BTreePage) : Prop := n.valCount = n.keys.length ∧ n.keys.length < 4097

theorem fetchNode_read {r : PageId × BTreePage} (hrun : BTree.fetchNode p t = (.ok r, t')) : Read r.2 := by
  rw [BTree.fetchNode] at hrun
  obtain ⟨_, t₁, -, h₁⟩ := Prog.bind_eq_ok hrun
  obtain ⟨node, hdecode, h₂⟩ := Prog.lift_bind_eq_ok h₁
  cases h₂
  exact (BTreePage.decode_paired hdecode).2

theorem findLeafLoop_read {n : Nat} {curr q : PageId} {temp node : BTreePage} {acc crumbs : List Crumb}
    (hrun : BTree.findLeafLoop key n curr temp acc t = (.ok (q, node, crumbs), t')) (h : Read temp) :
    Read node ∧ node.isLeaf = true := by
  induction n generalizing curr temp acc t with
  | zero => cases hrun
  | succ n ih =>
    rcases findLeafLoop_succ hrun with ⟨hleaf, hr, -⟩ | ⟨-, _, -, ⟨-, _, _, child, t₁, -, -, hchild, hloop⟩ |
      ⟨-, _, _, _, t₁, child, t₂, -, hchild, hloop⟩⟩
    · cases hr
      exact ⟨h, hleaf⟩
    · exact ih hloop (fetchNode_read hchild)
    · exact ih hloop (fetchNode_read hchild)

/-- An insertion into the leaf that the search returned adds one key to it. -/
theorem findLeaf_insertRecord {q : PageId} {node node' : BTreePage} {crumbs : List Crumb} {val : RID}
    (hrun : BTree.findLeaf key t = (.ok (q, node, crumbs), t')) (hins : node.insertRecord key val = .ok node') :
    node'.keys.length = node.keys.length + 1 := by
  rw [BTree.findLeaf, Prog.get_bind] at hrun
  obtain ⟨⟨curr, temp⟩, t₁, hroot, h₁⟩ := Prog.bind_eq_ok hrun
  obtain ⟨⟨hcount, hlen⟩, hleaf⟩ := findLeafLoop_read h₁ (fetchNode_read hroot)
  obtain ⟨rids, hvalues⟩ := BTreePage.values_of_isLeaf hleaf
  obtain ⟨i, ⟨hi, -⟩, hok⟩ := BTreePage.insertRecord_ok hvalues hcount (by omega) key val
  cases hins.symm.trans hok
  exact putAt_length _ _ hi

/-- The search takes a pin on every page of its path and on no other one. -/
theorem findLeaf_spec {q : PageId} {node : BTreePage} {crumbs : List Crumb}
    (hrun : BTree.findLeaf key t = (.ok (q, node, crumbs), t')) (h : PinsTaken b [] t.bpm)
    (hframes : FramesFor t.bpm ws) (hws : q :: crumbPages crumbs ⊆ ws) :
    ∃ bpm', t' = { t with bpm := bpm' } ∧ Searching b ws (q :: crumbPages crumbs) bpm' := by
  rw [BTree.findLeaf, Prog.get_bind] at hrun
  obtain ⟨⟨curr, temp⟩, t₁, hroot, h₁⟩ := Prog.bind_eq_ok hrun
  have hsearch : Searching b ws [] t.bpm := ⟨h, fun p hp => absurd hp List.not_mem_nil, hframes⟩
  obtain ⟨-, bpm₁, rfl, h'⟩ := hsearch.child hroot (List.Subset.trans (findLeafLoop_pages h₁) hws)
  obtain ⟨bpm₂, hend, h''⟩ := findLeafLoop_spec h₁ h' hws
  exact ⟨bpm₂, hend, by simpa using h''⟩

end Search

/-! ## Flushes and splits -/

/-- What a flush of page `p` does: its pins are gone, and a frame is free. -/
structure FlushedTo (b : BufferPoolManager) (ps : List PageId) (p : PageId) (t t' : PoolTree) : Prop where
  taken : PinsTaken b (ps.filter (· ≠ p)) t'.bpm
  others : ∀ q, q ≠ p → Present t.bpm q → Present t'.bpm q
  room : 1 ≤ freeFrames t'.bpm
  grows : freeFrames t.bpm ≤ freeFrames t'.bpm
  freed : Present t.bpm p → freeFrames t.bpm + 1 ≤ freeFrames t'.bpm
  rootPid : t'.rootPid = t.rootPid
  maxSize : t'.maxSize = t.maxSize

section Splits

variable {b : BufferPoolManager} {ps : List PageId} {p : PageId} {t t' : PoolTree}

theorem FlushedTo.kept (h : FlushedTo b ps p t t') : PinsTaken b ps t'.bpm :=
  h.taken.mono fun _ hq => List.mem_of_mem_filter hq

theorem flushNode_spec {node : BTreePage} {u : Unit} (hrun : BTree.flushNode p node t = (.ok u, t'))
    (h : PinsTaken b ps t.bpm) (hroom : ¬ Present t.bpm p → 1 ≤ freeFrames t.bpm) : FlushedTo b ps p t t' := by
  rw [BTree.flushNode] at hrun
  obtain ⟨data, t₁, hserialize, hflush⟩ := Prog.bind_eq_ok hrun
  rw [BTree.serializeNode] at hserialize
  obtain ⟨u, t₂, halloc, h₁⟩ := Prog.bind_eq_ok hserialize
  cases halloc
  rw [Prog.modify_bind] at h₁
  obtain rfl := (Prod.mk.inj h₁).2
  obtain ⟨bpm', rfl, htaken, hothers, hone, hgrows, hfreed⟩ := flush_spec hflush h hroom
  exact ⟨htaken, hothers, hone, hgrows, hfreed, rfl, rfl⟩

theorem flushMeta_spec {u : Unit} (hrun : BTree.flushMeta t = (.ok u, t')) (h : PinsTaken b ps t.bpm)
    (hroom : ¬ Present t.bpm 0 → 1 ≤ freeFrames t.bpm) : FlushedTo b ps 0 t t' := by
  rw [BTree.flushMeta] at hrun
  obtain ⟨u, t₁, halloc, h₁⟩ := Prog.bind_eq_ok hrun
  cases halloc
  rw [Prog.get_bind] at h₁
  obtain ⟨bpm', rfl, htaken, hothers, hone, hgrows, hfreed⟩ := flush_spec h₁ h hroom
  exact ⟨htaken, hothers, hone, hgrows, hfreed, rfl, rfl⟩

/-- A step beside the pool: neither a page nor the table of the pool changes. -/
structure Beside (t t' : PoolTree) : Prop where
  pageTable : t'.bpm.pageTable = t.bpm.pageTable
  pages : t'.bpm.pages = t.bpm.pages
  freeList : t'.bpm.freeList = t.bpm.freeList
  rootPid : t'.rootPid = t.rootPid
  maxSize : t'.maxSize = t.maxSize

theorem Beside.trans {t'' : PoolTree} (h : Beside t t') (h' : Beside t' t'') : Beside t t'' :=
  ⟨h'.pageTable.trans h.pageTable, h'.pages.trans h.pages, h'.freeList.trans h.freeList,
    h'.rootPid.trans h.rootPid, h'.maxSize.trans h.maxSize⟩

theorem Beside.present (h : Beside t t') (q : PageId) : Present t'.bpm q ↔ Present t.bpm q := by
  rw [Present, Present, h.pageTable]

theorem Beside.freeFrames (h : Beside t t') : freeFrames t'.bpm = freeFrames t.bpm := by
  rw [SomeDB.freeFrames, SomeDB.freeFrames, h.freeList]

theorem Beside.pinsTaken (h : Beside t t') (htaken : PinsTaken b ps t.bpm) : PinsTaken b ps t'.bpm := by
  have hframe : frameOf t'.bpm = frameOf t.bpm := by
    funext q
    rw [frameOf, frameOf, h.pageTable]
  have hpins : pinsOf t'.bpm = pinsOf t.bpm := by
    funext q
    rw [pinsOf, pinsOf, hframe, h.pages]
  refine ⟨⟨?_, ?_, ?_⟩, ?_⟩
  · rw [hframe]
    exact htaken.inj
  · rw [hframe, h.freeList]
    exact htaken.used
  · rw [hframe, h.pages]
    exact htaken.ids
  · rw [hpins]
    exact htaken.pins

theorem newIndexPage_beside {isLeaf : Bool} {q : PageId} (hrun : BTree.newIndexPage isLeaf t = (.ok q, t')) :
    Beside t t' := by
  rw [BTree.newIndexPage, BTree.onBpm] at hrun
  obtain ⟨bpm', hnew, rfl⟩ := Prog.zoom_eq_ok hrun
  have hnew' : onDiskManager (newBtreeIndexPage isLeaf) t.bpm = (.ok q, bpm') := hnew
  obtain ⟨d, -, rfl⟩ := Prog.zoom_eq_ok hnew'
  exact ⟨rfl, rfl, rfl, rfl, rfl⟩

theorem newNode_beside {isLeaf : Bool} {node : BTreePage} (hrun : BTree.newNode isLeaf t = (.ok node, t')) :
    Beside t t' := by
  cases hrun
  exact ⟨rfl, rfl, rfl, rfl, rfl⟩

/-- A split of the root flushes the pages that it changes. -/
theorem splitRootNode_spec {isLeaf : Bool} {node old : BTreePage}
    (hrun : BTree.splitRootNode isLeaf node t = (.ok old, t')) (h : PinsTaken b ps t.bpm)
    (hroom : ¬ Present t.bpm 0 → 1 ≤ freeFrames t.bpm) :
    PinsTaken b (ps.filter (· ≠ t.rootPid)) t'.bpm ∧ 1 ≤ freeFrames t'.bpm := by
  rw [BTree.splitRootNode, Prog.get_bind] at hrun
  obtain ⟨midKey, -, h₁⟩ := Prog.lift_bind_eq_ok hrun
  obtain ⟨newNodeId, t₂, hnew, h₂⟩ := Prog.bind_eq_ok h₁
  have hbeside₁ := newIndexPage_beside hnew
  obtain ⟨newRootId, t₃, hroot, h₃⟩ := Prog.bind_eq_ok h₂
  have hbeside₂ := hbeside₁.trans (newIndexPage_beside hroot)
  obtain ⟨newNode, t₄, hnode, h₄⟩ := Prog.bind_eq_ok h₃
  have hbeside₃ := hbeside₂.trans (newNode_beside hnode)
  obtain ⟨newRoot, t₅, hnode', h₅⟩ := Prog.bind_eq_ok h₄
  have hbeside := hbeside₃.trans (newNode_beside hnode')
  rw [Prog.modify_bind] at h₅
  obtain ⟨⟨newNode', old'⟩, -, h₆⟩ := Prog.lift_bind_eq_ok h₅
  simp only [Prog.modify_bind] at h₆
  obtain ⟨_, t₇, hassert, h₇⟩ := Prog.bind_eq_ok h₆
  obtain ⟨-, rfl⟩ := assert_of_ok hassert
  obtain ⟨_, t₈, hmeta, h₈⟩ := Prog.bind_eq_ok h₇
  have hflushed₁ := flushMeta_spec hmeta (hbeside.pinsTaken h) fun hnot => by
    rw [hbeside.freeFrames]
    exact hroom fun hpresent => hnot ((hbeside.present 0).mpr hpresent)
  obtain ⟨_, t₉, hflush, h₉⟩ := Prog.bind_eq_ok h₈
  have hflushed₂ := flushNode_spec hflush hflushed₁.kept fun _ => hflushed₁.room
  obtain ⟨_, t₁₀, hflush, h₁₀⟩ := Prog.bind_eq_ok h₉
  have hflushed₃ := flushNode_spec hflush hflushed₂.kept fun _ => hflushed₂.room
  obtain ⟨_, t₁₁, hflush, h₁₁⟩ := Prog.bind_eq_ok h₁₀
  have hflushed₄ := flushNode_spec hflush hflushed₃.kept fun _ => hflushed₃.room
  cases h₁₁
  exact ⟨hflushed₄.taken, hflushed₄.room⟩

/-- What a fetch of page `p` does: it takes a pin, and a frame if the page was not resident. -/
structure PinnedTo (b : BufferPoolManager) (ps : List PageId) (p : PageId) (t t' : PoolTree) : Prop where
  taken : PinsTaken b (p :: ps) t'.bpm
  present : ∀ q, Present t.bpm q → Present t'.bpm q
  room : freeFrames t.bpm ≤ freeFrames t'.bpm + 1
  same : Present t.bpm p → freeFrames t'.bpm = freeFrames t.bpm
  rootPid : t'.rootPid = t.rootPid
  maxSize : t'.maxSize = t.maxSize

theorem fetch_pinnedTo {r : PageId × Page} (hrun : BTree.fetch p t = (.ok r, t')) (h : PinsTaken b ps t.bpm)
    (hroom : ¬ Present t.bpm p → 1 ≤ freeFrames t.bpm) : r.1 = p ∧ PinnedTo b ps p t t' := by
  obtain ⟨hid, -, f, page, bpm', hto, rfl⟩ := fetch_spec hrun h hroom
  exact ⟨hid, ⟨hto.pinsTaken h, fun q => hto.present, hto.freeFrames_le, hto.freeFrames_of_present, rfl, rfl⟩⟩

theorem getBtreePage_pinnedTo {node : BTreePage} (hrun : BTree.getBtreePage p t = (.ok node, t'))
    (h : PinsTaken b ps t.bpm) (hroom : ¬ Present t.bpm p → 1 ≤ freeFrames t.bpm) : PinnedTo b ps p t t' := by
  rw [BTree.getBtreePage, BTree.fetchNode] at hrun
  obtain ⟨⟨id, node'⟩, t₁, hfetch, h₁⟩ := Prog.bind_eq_ok hrun
  cases h₁
  obtain ⟨r, t₂, hread, h₂⟩ := Prog.bind_eq_ok hfetch
  obtain ⟨_, -, h₃⟩ := Prog.lift_bind_eq_ok h₂
  cases h₃
  exact (fetch_pinnedTo hread h hroom).2

/-- A split below a node that is resident flushes both, so that two frames are free after it. -/
theorem splitIntoParent_spec {isLeaf : Bool} {node : BTreePage} {top : Crumb} {r : BTreePage × BTreePage}
    (hrun : BTree.splitIntoParent isLeaf node p (some top) t = (.ok r, t')) (h : PinsTaken b ps t.bpm)
    (hp : Present t.bpm p) (htop : Present t.bpm top.1) (hne : p ≠ top.1) :
    PinsTaken b ((ps.filter (· ≠ top.1)).filter (· ≠ p)) t'.bpm ∧ 2 ≤ freeFrames t'.bpm := by
  rw [BTree.splitIntoParent] at hrun
  obtain ⟨midKey, -, h₁⟩ := Prog.lift_bind_eq_ok hrun
  obtain ⟨newNode, t₂, hnode, h₂⟩ := Prog.bind_eq_ok h₁
  have hbeside₁ := newNode_beside hnode
  obtain ⟨newNodeId, t₃, hnew, h₃⟩ := Prog.bind_eq_ok h₂
  have hbeside := hbeside₁.trans (newIndexPage_beside hnew)
  rw [Prog.modify_bind] at h₃
  obtain ⟨⟨newNode', old⟩, -, h₄⟩ := Prog.lift_bind_eq_ok h₃
  simp only at h₄
  obtain ⟨parentPid, t₅, hprev, h₅⟩ := Prog.bind_eq_ok h₄
  rw [BTree.getPrevBreadcrumbPid] at hprev
  obtain ⟨⟨id, data⟩, t₆, hfetch, h₆⟩ := Prog.bind_eq_ok hprev
  cases h₆
  have htop₃ := (hbeside.present top.1).mpr htop
  obtain ⟨hid, hpinned₁⟩ := fetch_pinnedTo hfetch (hbeside.pinsTaken h) fun hnot => absurd htop₃ hnot
  simp only at hid
  subst hid
  have htop₄ := hpinned₁.present _ htop₃
  obtain ⟨parent, t₇, hget, h₇⟩ := Prog.bind_eq_ok h₅
  have hpinned₂ := getBtreePage_pinnedTo hget hpinned₁.taken fun hnot => absurd htop₄ hnot
  obtain ⟨parent', -, h₈⟩ := Prog.lift_bind_eq_ok h₇
  obtain ⟨lastKey, -, h₉⟩ := Prog.lift_bind_eq_ok h₈
  obtain ⟨_, t₁₀, hassert, h₁₀⟩ := Prog.bind_eq_ok h₉
  obtain ⟨-, rfl⟩ := assert_of_ok hassert
  obtain ⟨_, t₁₁, hflush, h₁₁⟩ := Prog.bind_eq_ok h₁₀
  have hflushed₁ := flushNode_spec hflush hpinned₂.taken fun hnot => absurd (hpinned₂.present _ htop₄) hnot
  obtain ⟨_, t₁₂, hflush', h₁₂⟩ := Prog.bind_eq_ok h₁₁
  have hflushed₂ := flushNode_spec hflush' hflushed₁.taken fun _ => hflushed₁.room
  obtain ⟨_, t₁₃, hflush'', h₁₃⟩ := Prog.bind_eq_ok h₁₂
  cases h₁₃
  have hflushed₃ := flushNode_spec hflush'' hflushed₂.kept fun _ => hflushed₂.room
  have hfree₁ := hflushed₁.freed (hpinned₂.present _ htop₄)
  have hp₄ := hflushed₁.others p hne (hpinned₂.present p (hpinned₁.present p ((hbeside.present p).mpr hp)))
  refine ⟨hflushed₃.taken.mono ?_, ?_⟩
  · intro q hq
    simp only [List.mem_filter, List.mem_cons, decide_eq_true_eq] at hq ⊢
    exact ⟨⟨(hq.1.1.resolve_left hq.1.2).resolve_left hq.1.2, hq.1.2⟩, hq.2⟩
  · by_cases hid : p = newNodeId
    · have hfree₂ := hflushed₂.freed (hid ▸ hp₄)
      have hfree₃ := hflushed₃.grows
      omega
    · have hfree₂ := hflushed₂.grows
      have hfree₃ := hflushed₃.freed (hflushed₂.others p hid hp₄)
      omega

theorem splitRootPage_spec {u : Unit} (hrun : BTree.splitRootPage t = (.ok u, t')) (h : PinsTaken b ps t.bpm)
    (hroom : 2 ≤ freeFrames t.bpm) : PinsTaken b ps t'.bpm ∧ 1 ≤ freeFrames t'.bpm := by
  rw [BTree.splitRootPage, Prog.get_bind] at hrun
  obtain ⟨rootPage, t₁, hget, h₁⟩ := Prog.bind_eq_ok hrun
  have hpinned := getBtreePage_pinnedTo hget h fun _ => by omega
  obtain ⟨_, t₂, hsplit, h₂⟩ := Prog.bind_eq_ok h₁
  cases h₂
  have hle := hpinned.room
  obtain ⟨htaken, hfree⟩ := splitRootNode_spec hsplit hpinned.taken fun _ => by omega
  refine ⟨htaken.mono fun q hq => ?_, hfree⟩
  rw [hpinned.rootPid, List.mem_filter] at hq
  rcases List.mem_cons.mp hq.1 with rfl | hq'
  · simp at hq
  · exact hq'

/-- A split of a leaf below the root. -/
theorem splitNonRootNode_spec {isLeaf : Bool} {node old : BTreePage} {top : Crumb}
    (hrun : BTree.splitNonRootNode isLeaf node p [top] t = (.ok old, t')) (h : PinsTaken b ps t.bpm)
    (hp : Present t.bpm p) (htop : Present t.bpm top.1) (hne : p ≠ top.1) :
    PinsTaken b ((ps.filter (· ≠ top.1)).filter (· ≠ p)) t'.bpm ∧ 1 ≤ freeFrames t'.bpm := by
  rw [BTree.splitNonRootNode] at hrun
  obtain ⟨⟨old', parent⟩, t₁, hsplit, h₁⟩ := Prog.bind_eq_ok hrun
  obtain ⟨htaken, hfree⟩ := splitIntoParent_spec hsplit h hp htop hne
  simp only [Prog.get_bind] at h₁
  split at h₁
  · obtain ⟨_, t₂, hroot, h₂⟩ := Prog.bind_eq_ok h₁
    cases h₂
    exact splitRootPage_spec hroot htaken hfree
  · cases h₁
    exact ⟨htaken, by omega⟩

end Splits

/-! ## Operations -/

/-- The pages that the operation fetches are all flushed before it returns, and no frame has to be evicted for
them. -/
inductive ReleasePath (t : PoolTree) : IndexOp → Prop
  /-- A new key goes into a leaf that is the root. -/
  | insertAtRoot {key : BTreeKey} {val : RID} {t₁ t₂ : PoolTree} {leafPid : PageId} {leaf : BTreePage}
      (hroot : BTree.createRoot t = (.ok (), t₁)) (hfind : BTree.findLeaf key t₁ = (.ok (leafPid, leaf, []), t₂))
      (hnew : ¬ leaf.keys.any fun k => cmpKeys k key == 0)
      (hframes : FramesFor t.bpm (if t.maxSize.toNat ≤ leaf.keys.length then [leafPid, 0] else [leafPid])) :
      ReleasePath t (.insert key val)
  /-- A new key goes into a full leaf right below the root. -/
  | insertBelow {key : BTreeKey} {val : RID} {t₁ t₂ : PoolTree} {leafPid : PageId} {leaf : BTreePage} {top : Crumb}
      (hroot : BTree.createRoot t = (.ok (), t₁))
      (hfind : BTree.findLeaf key t₁ = (.ok (leafPid, leaf, [top]), t₂))
      (hnew : ¬ leaf.keys.any fun k => cmpKeys k key == 0) (hfull : t.maxSize.toNat ≤ leaf.keys.length)
      (hne : leafPid ≠ top.1) (hframes : FramesFor t.bpm [leafPid, top.1]) : ReleasePath t (.insert key val)
  /-- A key is removed from a leaf that is the root. -/
  | removeAtRoot {key : BTreeKey} {t₁ : PoolTree} {leafPid : PageId} {leaf : BTreePage}
      (hfind : BTree.findLeaf key t = (.ok (leafPid, leaf, []), t₁)) (hframes : FramesFor t.bpm [leafPid]) :
      ReleasePath t (.remove key)

/-- The condition under which an operation releases its pins. -/
structure ReleaseSafe (t : PoolTree) (op : IndexOp) : Prop where
  pool : OwnFrames t.bpm
  path : ReleasePath t op

section Operations

variable {b : BufferPoolManager} {ps : List PageId} {t t' : PoolTree} {key : BTreeKey} {val : RID}

theorem OwnFrames.pinsTaken {bpm : BufferPoolManager} (h : OwnFrames bpm) : PinsTaken bpm [] bpm :=
  ⟨h, fun p c _ hpins => by rw [hpins, Option.getD_some]⟩

theorem PinsTaken.pinsKept {bpm : BufferPoolManager} (h : PinsTaken b [] bpm) : PinsKept b bpm :=
  fun p c hpins => h.pins p c List.not_mem_nil hpins

/-- The page of a new root is written behind the pool. -/
theorem createRoot_spec {u : Unit} (hrun : BTree.createRoot t = (.ok u, t')) :
    t'.maxSize = t.maxSize ∧ (∀ ps, PinsTaken b ps t.bpm → PinsTaken b ps t'.bpm) ∧
      ∀ ws, FramesFor t.bpm ws → FramesFor t'.bpm ws := by
  rw [BTree.createRoot, Prog.get_bind] at hrun
  split at hrun
  · obtain ⟨rootPid, t₁, hnew, h₁⟩ := Prog.bind_eq_ok hrun
    have hbeside := newIndexPage_beside hnew
    rw [Prog.modify_bind] at h₁
    obtain ⟨_, t₂, hassert, h₂⟩ := Prog.bind_eq_ok h₁
    obtain ⟨-, rfl⟩ := assert_of_ok hassert
    cases h₂
    refine ⟨hbeside.maxSize, fun ps h => hbeside.pinsTaken h, fun ws h => ?_⟩
    rw [FramesFor, freeFrames] at h ⊢
    simp only [hbeside.pageTable, hbeside.freeList]
    exact h
  · cases hrun
    exact ⟨rfl, fun _ h => h, fun _ h => h⟩

/-- An insertion after its search. -/
theorem insert_eq_ok {r : PageId} (hrun : BTree.insert key val t = (.ok r, t')) {t₁ t₂ : PoolTree} {leafPid : PageId}
    {leaf : BTreePage} {crumbs : List Crumb} (hroot : BTree.createRoot t = (.ok (), t₁))
    (hfind : BTree.findLeaf key t₁ = (.ok (leafPid, leaf, crumbs), t₂))
    (hnew : ¬ leaf.keys.any fun k => cmpKeys k key == 0) :
    ∃ leaf₁ leaf₂ t₃ u, leaf.insertRecord key val = .ok leaf₁ ∧
      BTree.splitFullLeaf leaf₁ leafPid crumbs t₂ = (.ok leaf₂, t₃) ∧
      BTree.flushNode leafPid leaf₂ t₃ = (.ok u, t') := by
  rw [BTree.insert, Prog.bind_ok hroot, Prog.bind_ok hfind] at hrun
  simp only at hrun
  obtain ⟨_, t₃, hassert, h₁⟩ := Prog.bind_eq_ok hrun
  obtain ⟨-, rfl⟩ := assert_of_ok hassert
  rw [if_neg hnew] at h₁
  obtain ⟨leaf₁, hins, h₂⟩ := Prog.lift_bind_eq_ok h₁
  obtain ⟨leaf₂, t₄, hsplit, h₃⟩ := Prog.bind_eq_ok h₂
  obtain ⟨u, t₅, hflush, h₄⟩ := Prog.bind_eq_ok h₃
  cases h₄
  exact ⟨leaf₁, leaf₂, t₄, u, hins, hsplit, hflush⟩

theorem insertAtRoot_releases {r : PageId} (hrun : BTree.insert key val t = (.ok r, t')) {t₁ t₂ : PoolTree}
    {leafPid : PageId} {leaf : BTreePage} (hroot : BTree.createRoot t = (.ok (), t₁))
    (hfind : BTree.findLeaf key t₁ = (.ok (leafPid, leaf, []), t₂))
    (hnew : ¬ leaf.keys.any fun k => cmpKeys k key == 0)
    (hframes : FramesFor t.bpm (if t.maxSize.toNat ≤ leaf.keys.length then [leafPid, 0] else [leafPid]))
    (h : PinsTaken b [] t.bpm) : PinsTaken b [] t'.bpm := by
  obtain ⟨hmax, hkept, hkeptFrames⟩ := createRoot_spec (b := b) hroot
  obtain ⟨leaf₁, leaf₂, t₃, u, hins, hsplit, hflush⟩ := insert_eq_ok hrun hroot hfind hnew
  have hlen := findLeaf_insertRecord hfind hins
  obtain ⟨bpm', rfl, hsearch⟩ := findLeaf_spec hfind (hkept [] h) (hkeptFrames _ hframes) (by split <;> simp)
  rw [BTree.splitFullLeaf, Prog.get_bind] at hsplit
  simp only [hmax] at hsplit
  split at hsplit
  · -- page 0 has its frame: the metadata are flushed first
    next hfull =>
    obtain ⟨_, t₄, hassert, h₁⟩ := Prog.bind_eq_ok hsplit
    obtain ⟨-, rfl⟩ := assert_of_ok hassert
    rw [if_pos (by rfl)] at h₁
    have hframes' := hsearch.frames
    rw [if_pos (by omega)] at hframes'
    obtain ⟨htaken, hfree⟩ := splitRootNode_spec h₁ hsearch.toPinsTaken (hframes'.room (by simp))
    have hflushed := flushNode_spec hflush htaken fun _ => hfree
    exact hflushed.taken.mono (by simp)
  · cases hsplit
    have hflushed := flushNode_spec hflush hsearch.toPinsTaken fun hnot => absurd (hsearch.present _ (by simp)) hnot
    exact hflushed.taken.mono (by simp)

theorem insertBelow_releases {r : PageId} (hrun : BTree.insert key val t = (.ok r, t')) {t₁ t₂ : PoolTree}
    {leafPid : PageId} {leaf : BTreePage} {top : Crumb} (hroot : BTree.createRoot t = (.ok (), t₁))
    (hfind : BTree.findLeaf key t₁ = (.ok (leafPid, leaf, [top]), t₂))
    (hnew : ¬ leaf.keys.any fun k => cmpKeys k key == 0) (hfull : t.maxSize.toNat ≤ leaf.keys.length)
    (hne : leafPid ≠ top.1) (hframes : FramesFor t.bpm [leafPid, top.1]) (h : PinsTaken b [] t.bpm) :
    PinsTaken b [] t'.bpm := by
  obtain ⟨hmax, hkept, hkeptFrames⟩ := createRoot_spec (b := b) hroot
  obtain ⟨leaf₁, leaf₂, t₃, u, hins, hsplit, hflush⟩ := insert_eq_ok hrun hroot hfind hnew
  have hlen := findLeaf_insertRecord hfind hins
  obtain ⟨bpm', rfl, hsearch⟩ := findLeaf_spec hfind (hkept [] h) (hkeptFrames _ hframes) (List.Subset.refl _)
  rw [BTree.splitFullLeaf, Prog.get_bind] at hsplit
  simp only [hmax] at hsplit
  rw [if_pos (by omega)] at hsplit
  obtain ⟨_, t₄, hassert, h₁⟩ := Prog.bind_eq_ok hsplit
  obtain ⟨-, rfl⟩ := assert_of_ok hassert
  rw [if_neg (by simp)] at h₁
  obtain ⟨htaken, hfree⟩ := splitNonRootNode_spec h₁ hsearch.toPinsTaken (hsearch.present _ (by simp))
    (hsearch.present _ (by simp)) hne
  have hflushed := flushNode_spec hflush htaken fun _ => hfree
  refine hflushed.taken.mono ?_
  simp

theorem removeAtRoot_releases {u : Unit} (hrun : BTree.remove key t = (.ok u, t')) {t₁ : PoolTree} {leafPid : PageId}
    {leaf : BTreePage} (hfind : BTree.findLeaf key t = (.ok (leafPid, leaf, []), t₁))
    (hframes : FramesFor t.bpm [leafPid]) (h : PinsTaken b [] t.bpm) : PinsTaken b [] t'.bpm := by
  obtain ⟨bpm', rfl, hsearch⟩ := findLeaf_spec hfind h hframes (List.Subset.refl _)
  rw [BTree.remove, Prog.bind_ok hfind] at hrun
  obtain ⟨leafVals, -, h₁⟩ := Prog.lift_bind_eq_ok hrun
  obtain ⟨keys, -, h₂⟩ := Prog.lift_bind_eq_ok h₁
  obtain ⟨vals, -, h₃⟩ := Prog.lift_bind_eq_ok h₂
  obtain ⟨_, t₂, hflush, h₄⟩ := Prog.bind_eq_ok h₃
  cases h₄
  have hflushed := flushNode_spec hflush hsearch.toPinsTaken fun hnot => absurd (hsearch.present _ (by simp)) hnot
  exact hflushed.taken.mono (by simp)

/-- An operation that flushes every page it fetches leaves the pin counts as they were. -/
theorem indexOp_pinsKept (op : IndexOp) (t t' : PoolTree) (hsafe : ReleaseSafe t op)
    (hrun : op.run t = (.ok (), t')) : PinsKept t.bpm t'.bpm := by
  have h := hsafe.pool.pinsTaken
  refine PinsTaken.pinsKept ?_
  cases hsafe.path with
  | insertAtRoot hroot hfind hnew hframes =>
    obtain ⟨r, t₁, hinsert, h₁⟩ := Prog.bind_eq_ok hrun
    cases h₁
    exact insertAtRoot_releases hinsert hroot hfind hnew hframes h
  | insertBelow hroot hfind hnew hfull hne hframes =>
    obtain ⟨r, t₁, hinsert, h₁⟩ := Prog.bind_eq_ok hrun
    cases h₁
    exact insertBelow_releases hinsert hroot hfind hnew hfull hne hframes h
  | removeAtRoot hfind hframes => exact removeAtRoot_releases hrun hfind hframes h

/-- The index that `create_btree_index` made, opened over a pool of three frames. -/
def pooledIndex (maxKeys : UInt8) : PoolTree where
  magicNum := BTREE_INDEX
  maxSize := maxKeys
  bpm := newBpm 3 (createBtreeIndex maxKeys)
  rootPid := 0
  nodeCount := 0
  heap := fun _ => ⟨0, 0, 0, Block.zero⟩
  serialized := []

/-- The first insertion into an index. -/
theorem indexOp_pinsKept_first :
    ∃ t', (IndexOp.insert (byteKey 65) ⟨1, 0⟩).run (pooledIndex 2) = (.ok (), t') ∧
      PinsKept (pooledIndex 2).bpm t'.bpm := by
  obtain ⟨_, hroot⟩ := Prog.eq_ok_of_isOk (m := BTree.createRoot) (s := pooledIndex 2) (by decide +kernel)
  have hread : (BTree.findLeaf (byteKey 65) (BTree.createRoot (pooledIndex 2)).2).1.toOption.map
      (fun r => (r.1, r.2.1.keys, r.2.2)) = some (1, [], []) := by decide +kernel
  obtain ⟨⟨leafPid, leaf, crumbs⟩, hfind⟩ := Prog.eq_ok_of_isOk (m := BTree.findLeaf (byteKey 65))
    (s := (BTree.createRoot (pooledIndex 2)).2) (by decide +kernel)
  obtain ⟨_, hrun⟩ := Prog.eq_ok_of_isOk (m := (IndexOp.insert (byteKey 65) ⟨1, 0⟩).run) (s := pooledIndex 2)
    (by decide +kernel)
  rw [hfind] at hread
  simp only [Except.toOption, Option.map_some, Option.some.injEq, Prod.mk.injEq] at hread
  obtain ⟨rfl, hkeys, rfl⟩ := hread
  refine ⟨_, hrun, indexOp_pinsKept _ _ _
    ⟨(DirInv.init 3 _ (by decide)).ownFrames, .insertAtRoot hroot hfind ?_ ?_⟩ hrun⟩
  · rw [hkeys]
    decide
  · rw [hkeys, if_neg (by decide)]
    decide

/-- A second insertion of the key leaves the root pinned. -/
theorem indexOp_pinsKept_fails :
    ¬ ∀ (op : IndexOp) (t t' : PoolTree), op.run t = (.ok (), t') → PinsKept t.bpm t'.bpm := by
  intro h
  have hfirst : pinsOf ((IndexOp.insert (byteKey 65) ⟨1, 0⟩).run (pooledIndex 2)).2.bpm 1 = none := by decide +kernel
  have hsecond : pinsOf ((IndexOp.insert (byteKey 65) ⟨2, 0⟩).run
      ((IndexOp.insert (byteKey 65) ⟨1, 0⟩).run (pooledIndex 2)).2).2.bpm 1 = some 2 := by decide +kernel
  obtain ⟨_, hrun⟩ := Prog.eq_ok_of_isOk (m := (IndexOp.insert (byteKey 65) ⟨2, 0⟩).run)
    (s := ((IndexOp.insert (byteKey 65) ⟨1, 0⟩).run (pooledIndex 2)).2) (by decide +kernel)
  have hkept := h _ _ _ hrun 1 2 hsecond
  rw [hfirst] at hkept
  cases hkept

end Operations

end SomeDB
