import SomeDB.Index.FlushNode

/-!
# Coherent pools

The disk manager of an index file is used in two ways: through the pool, and directly, by `new_btree_index_page`. A
pool is `Coherent` if what a fetch of any page returns is what is on disk. If every page of the file has a frame and a
bucket for itself (`Covers`), nothing is evicted and no removal from the page table frees the key of a page that
stays. Then a fetch keeps the pool coherent, and `flush_node` is a write to the file.
-/

namespace SomeDB

open Lib

/-- The page table is exact, and resident pages are as they are on disk. -/
structure Coherent (bpm : BufferPoolManager) : Prop where
  dir : ∃ rs, bpm.DirInv rs
  clean : ∀ p, contentOf bpm p = bpm.diskManager p
  frames : bpm.freeList.length = bpm.poolSize

/-- There is a frame and a bucket for every page of the file. -/
structure Covers (bpm : BufferPoolManager) : Prop where
  pages : ∀ p, bpm.diskManager p ≠ none → p.toNat < bpm.poolSize
  buckets : bpm.poolSize ≤ 65535

theorem Coherent.init {poolSize : Nat} (d : Disk) (hpos : 0 < poolSize) (hle : poolSize ≤ 65535) :
    Coherent (newBpm poolSize d) := by
  have hdir := DirInv.init poolSize d (by omega)
  refine ⟨⟨[], hdir⟩, fun p => ?_, by simp [newBpm]⟩
  have hnone : frameOf (newBpm poolSize d) p = none := hdir.frameIn_eq_none.mpr (by simp)
  rw [contentOf, hnone]

/-- Numbers below the size of a table have buckets of their own. -/
theorem HashTable.Refines.hash_number {α : Type} {ht : HashTable α} {n : Nat} {m : CString → Option α}
    (h : ht.Refines n m) {k : Nat} (hk : k < n) (hn : n ≤ 65535) : hash (sprintfU k) ht = .ok k := by
  have hsize : ht.size ≠ 0 := by
    intro h0
    have hz := h.size
    rw [h0, UInt16.toNat_zero] at hz
    omega
  rw [hash, if_neg hsize, h.size, atoi_sprintfU (by omega), Int.tmod_eq_of_lt (by omega) (by omega)]
  congr 1
  omega

section Steps

variable {bpm bpm' : BufferPoolManager} {p : PageId} {f : FrameId} {rs : List (Nat × FrameId)} {data : Page}

/-- A resident page is in the file. -/
theorem Coherent.resident (h : Coherent bpm) (hdir : bpm.DirInv rs) (hmem : (p.toNat, f) ∈ rs) :
    bpm.diskManager p ≠ none := by
  obtain ⟨page, hpage, -⟩ := hdir.ids _ hmem
  have hframe : frameOf bpm p = some f := hdir.frameIn_iff.mpr hmem
  rw [← h.clean, contentOf, hframe]
  simp [hpage]

/-- The number of a resident page. -/
theorem Coherent.number_lt (h : Coherent bpm) (hcov : Covers bpm) (hdir : bpm.DirInv rs) {x : Nat × FrameId}
    (hx : x ∈ rs) : x.1 < bpm.poolSize := by
  have hsmall := hdir.small x hx
  have htoNat : (UInt32.ofNat x.1).toNat = x.1 := by
    rw [UInt32.toNat_ofNat', Nat.mod_eq_of_lt (by omega)]
  have hmem : ((UInt32.ofNat x.1).toNat, x.2) ∈ rs := by
    rw [htoNat]
    exact hx
  have hlt := hcov.pages _ (h.resident hdir hmem)
  rwa [htoNat] at hlt

/-- A page of the file that is not resident finds a free frame. -/
theorem Coherent.room (h : Coherent bpm) (hcov : Covers bpm) (hp : bpm.diskManager p ≠ none)
    (habsent : frameOf bpm p = none) : true ∈ bpm.freeList := by
  obtain ⟨rs, hdir⟩ := h.dir
  by_contra hfull
  -- every frame is taken
  have htaken : ∀ g ∈ List.range bpm.poolSize, g ∈ rs.map (·.2) := by
    intro g hg
    have hg := List.mem_range.mp hg
    refine (hdir.free g hg).mp ?_
    have hlt : g < bpm.freeList.length := by
      rw [h.frames]
      exact hg
    rw [List.getElem?_eq_getElem hlt]
    cases hbit : bpm.freeList[g] with
    | false => rfl
    | true => exact absurd (hbit ▸ List.getElem_mem hlt) hfull
  have hframes := (List.nodup_range.subperm htaken).length_le
  -- and the pages in them are others than `p`
  have hnumbers : ∀ n ∈ p.toNat :: rs.map (·.1), n ∈ List.range bpm.poolSize := by
    intro n hn
    rw [List.mem_range]
    rcases List.mem_cons.mp hn with rfl | hn
    · exact hcov.pages p hp
    · obtain ⟨x, hx, rfl⟩ := List.mem_map.mp hn
      exact h.number_lt hcov hdir hx
  have hnew := hdir.frameIn_eq_none.mp habsent
  have hpages := ((List.nodup_cons.mpr ⟨hnew, hdir.numbers⟩).subperm hnumbers).length_le
  simp only [List.length_range, List.length_map, List.length_cons] at hframes hpages
  omega

/-- What a fetch leaves. -/
structure FetchedClean (p : PageId) (data : Page) (bpm : BufferPoolManager) (f : FrameId) (bpm' : BufferPoolManager) :
    Prop where
  coherent : Coherent bpm'
  disk : bpm'.diskManager = bpm.diskManager
  size : bpm'.poolSize = bpm.poolSize
  frame : frameOf bpm' p = some f
  others : ∀ q, q ≠ p → frameOf bpm' q = frameOf bpm q
  page : ∃ page : BpmPage, bpm'.pages[f]? = some page ∧ page.id = p ∧ page.data = data

/-- A fetch returns the page as it is on disk. -/
theorem Coherent.fetch (h : Coherent bpm) (hcov : Covers bpm) (hp : bpm.diskManager p = some data)
    (hrun : fetchBpmPage p bpm = (.ok f, bpm')) : FetchedClean p data bpm f bpm' := by
  obtain ⟨rs, hdir⟩ := h.dir
  have hroom : frameOf bpm p = none → true ∈ bpm.freeList := h.room hcov (by rw [hp]; simp)
  have hfetched := fetchBpmPage_eq_ok hrun
  obtain ⟨rs', hdir', -, -, hsize, hdisk⟩ := hfetched.dirInv hdir hroom
  have htaken : PinsTaken bpm [] bpm := ⟨hdir.ownFrames, fun q c _ hc => by rw [hc]; rfl⟩
  obtain ⟨page, hto⟩ := hfetched.fetchedTo htaken fun hnot =>
    List.count_pos_iff.mpr (hroom (frameIn_of_absent (not_not.mp hnot)))
  have hpage : bpm'.pages[f]? = some page := by
    rw [hto.pages, List.getElem?_set_self hto.bound]
  have hdata : page.data = data := by
    have hcontent := hto.content
    rw [h.clean, hp] at hcontent
    exact (Option.some.inj hcontent).symm
  refine ⟨⟨⟨rs', hdir'⟩, fun q => ?_, ?_⟩, hdisk, hsize, hto.frame,
    fun q hq => hto.frameOf_ne hq, page, hpage, hto.id, hdata⟩
  · rw [hdisk, ← h.clean q]
    by_cases hq : q = p
    · subst hq
      rw [contentOf, hto.frame, hto.content]
      simp [hpage]
    · rw [contentOf, contentOf, hto.frameOf_ne hq, hdisk]
      cases hframe : frameOf bpm q with
      | none => rfl
      | some g =>
        simp only [hto.pages, List.getElem?_set_ne (hto.frame_ne htaken hq hframe)]
  · rcases hto.free with ⟨-, hfree⟩ | ⟨-, -, hfree⟩
    · rw [hfree, h.frames, hsize]
    · rw [hfree, List.length_set, h.frames, hsize]

/-- A page has its bucket of the page table for itself. -/
theorem Coherent.alone (h : Coherent bpm) (hcov : Covers bpm) (hp : p.toNat < bpm.poolSize) {q : PageId}
    (hq : q ≠ p) (hframe : frameOf bpm q ≠ none) :
    hash (sprintfD q) bpm.pageTable ≠ hash (sprintfD p) bpm.pageTable := by
  obtain ⟨rs, hdir⟩ := h.dir
  have hbuckets := hcov.buckets
  have htable : bpm.pageTable.Refines bpm.poolSize (numbered rs) := by
    have htable := hdir.table
    rwa [Nat.mod_eq_of_lt (by omega)] at htable
  obtain ⟨g, hg⟩ := Option.ne_none_iff_exists'.mp hframe
  have hlt : q.toNat < bpm.poolSize := h.number_lt hcov hdir (hdir.frameIn_iff.mp hg)
  rw [sprintfD_of_lt (by omega), sprintfD_of_lt (by omega), htable.hash_number hlt hcov.buckets,
    htable.hash_number hp hcov.buckets]
  intro heq
  exact hq (UInt32.toNat_inj.mp (Except.ok.inj heq))

/-- What a flush leaves: the page is written, and it is not resident any more. -/
structure FlushedClean (p : PageId) (data : Page) (bpm bpm' : BufferPoolManager) : Prop where
  coherent : Coherent bpm'
  disk : bpm'.diskManager = bpm.diskManager.write p data
  size : bpm'.poolSize = bpm.poolSize
  absent : ∀ q, q = p ∨ frameOf bpm q = none → frameOf bpm' q = none

/-- A flush writes the frame of a page and drops the page. -/
theorem Coherent.flushPage {r : Bool} (hrun : flushPage p bpm = (.ok r, bpm')) (hdir : bpm.DirInv rs)
    (hclean : ∀ q, q ≠ p → contentOf bpm q = bpm.diskManager q) (hframes : bpm.freeList.length = bpm.poolSize)
    (hframe : frameOf bpm p = some f) {page : BpmPage} (hpage : bpm.pages[f]? = some page)
    (hsafe : DirSafe bpm (.flush p)) : FlushedClean p page.data bpm bpm' := by
  have hflushed := flushPage_eq_ok hrun
  obtain ⟨rs', hdir', hsub, -⟩ := hflushed.dirInv hdir hsafe
  cases hflushed with
  | absent hnone => cases hnone.symm.trans hframe
  | @written g page' removed ht rep hframe' hpage' htable hremoved hreplacer =>
    obtain rfl : g = f := Option.some.inj (hframe'.symm.trans hframe)
    obtain rfl : page' = page := Option.some.inj (hpage'.symm.trans hpage)
    have hgone : ∀ q g', frameIn ht q = some g' → q ≠ p ∧ frameOf bpm q = some g' := by
      intro q g' hq
      obtain ⟨hmem, hne⟩ := hsub _ (hdir'.frameIn_iff.mp hq)
      exact ⟨fun he => hne (congrArg UInt32.toNat he), hdir.frameIn_iff.mpr hmem⟩
    refine ⟨⟨⟨rs', hdir'⟩, fun q => ?_, ?_⟩, rfl, rfl, fun q hq => ?_⟩
    · cases hq : frameIn ht q with
      | none => simp only [contentOf, frameOf, hq]
      | some g' =>
        obtain ⟨hqp, hbefore⟩ := hgone q g' hq
        have hold := hclean q hqp
        rw [contentOf, hbefore] at hold
        simp only [contentOf, frameOf, hq]
        rw [Disk.write_ne _ _ hqp]
        exact hold
    · exact (List.length_set ..).trans hframes
    · rw [Option.eq_none_iff_forall_ne_some]
      intro g' hg'
      obtain ⟨hqp, hbefore⟩ := hgone q g' hg'
      rcases hq with hq | hq
      · exact hqp hq
      · cases hq.symm.trans hbefore

/-- `flush_node` of a page of the file is a write to the file. -/
theorem Coherent.flushNode {u : Unit} (h : Coherent bpm) (hcov : Covers bpm) (hp : bpm.diskManager p ≠ none)
    (hrun : (PageStore.flushNode p data : BpmM Unit) bpm = (.ok u, bpm')) : FlushedClean p data bpm bpm' := by
  obtain ⟨old, hold⟩ := Option.ne_none_iff_exists'.mp hp
  obtain ⟨f, bpm₁, hcall, h₁⟩ := Prog.bind_eq_ok hrun
  obtain ⟨hcoh, hdisk, hsize, hframe, hothers, page, hpage, hid, -⟩ := h.fetch hcov hold hcall
  obtain ⟨page', bpm₂, hat, h₂⟩ := Prog.bind_eq_ok h₁
  obtain ⟨hpage', rfl⟩ := pageAt_eq_ok hat
  obtain rfl : page' = page := Option.some.inj (hpage'.symm.trans hpage)
  obtain ⟨rs, hdir⟩ := hcoh.dir
  have hmem := hdir.frameIn_iff.mp hframe
  -- the frame is found once more under the id of its page
  obtain ⟨el, bpm₃, hfind, h₃⟩ := Prog.bind_eq_ok h₂
  rw [hid] at hfind
  obtain ⟨hderef, rfl⟩ := hdir.find_eq hmem hfind
  rw [hderef, Prog.lift_ok_bind] at h₃
  obtain ⟨_, bpm₄, hwrite, h₄⟩ := Prog.bind_eq_ok h₃
  obtain ⟨page'', hpage'', rfl⟩ := writeToFrame_eq_ok hwrite
  obtain ⟨r, bpm₅, hflush, h₅⟩ := Prog.bind_eq_ok h₄
  cases h₅
  have hcov' : Covers bpm₃ := ⟨by rw [hdisk, hsize]; exact hcov.pages, by rw [hsize]; exact hcov.buckets⟩
  have hlt : p.toNat < bpm₃.poolSize := hcov'.pages p (by rw [hdisk]; exact hp)
  have hbound := (List.getElem?_eq_some_iff.mp hpage'').1
  have hdir' : DirInv bpm₃.poolSize (bpm₃.pages.set f { page'' with data, isDirty := true }) bpm₃.pageTable
      bpm₃.freeList rs := hdir.setPage hpage'' rfl
  have hsafe : DirSafe { bpm₃ with pages := bpm₃.pages.set f { page'' with data, isDirty := true } } (.flush p) :=
    fun _ q hq hq' => hcoh.alone hcov' hlt hq hq'
  have hclean : ∀ q, q ≠ p →
      contentOf { bpm₃ with pages := bpm₃.pages.set f { page'' with data, isDirty := true } } q =
        bpm₃.diskManager q := by
    intro q hq
    rw [← hcoh.clean q]
    simp only [contentOf, frameOf]
    cases hg : frameIn bpm₃.pageTable q with
    | none => rfl
    | some g =>
      -- the frame of another page stays as it was
      have hgmem := hdir.frameIn_iff.mp hg
      have hgf : f ≠ g := by
        rintro rfl
        exact hq (UInt32.toNat_inj.mp (congrArg Prod.fst (List.inj_on_of_nodup_map hdir.frames hgmem hmem rfl)))
      simp only [List.getElem?_set_ne hgf]
  obtain ⟨hcoh', hdisk', hsize', habsent⟩ := Coherent.flushPage hflush hdir' hclean hcoh.frames hframe
    (List.getElem?_set_self hbound) hsafe
  refine ⟨hcoh', by rw [hdisk', hdisk], by rw [hsize', hsize], fun q hq => ?_⟩
  by_cases hqp : q = p
  · exact habsent q (.inl hqp)
  · exact habsent q (.inr ((hothers q hqp).trans (hq.resolve_left hqp)))

/-- The disk manager writes pages that are not resident. -/
theorem Coherent.direct (h : Coherent bpm) {d : Disk}
    (hsame : ∀ q, frameOf bpm q ≠ none → d q = bpm.diskManager q) : Coherent { bpm with diskManager := d } := by
  refine ⟨h.dir, fun q => ?_, h.frames⟩
  have hclean := h.clean q
  cases hframe : frameOf bpm q with
  | none => simp only [contentOf, hframe]
  | some g =>
    have hd : d q = bpm.diskManager q := hsame q (by rw [hframe]; simp)
    simp only [contentOf, hframe] at hclean ⊢
    rw [hd]
    exact hclean

end Steps

end SomeDB
