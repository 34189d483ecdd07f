import SomeDB.Index.CheckedFile
import SomeDB.Index.Coherent
import SomeDB.Index.SortedMap

/-!
# The index on the buffer pool

The results about trees are stated for `BTree Disk`, where a fetch returns the page as it was last flushed. Here they
are carried over to the buffer pool itself (`PoolTree`). `Pooled` says what the index keeps of its pool: it is coherent,
has a frame for each page of the file, and does not hold the metadata page, which the disk manager writes behind it.
With such a pool the index does what it does on a checked file (`pooled_followsFile`), so where that run and the one
over the pool return, the pool is as good as the plain file, and its file is the plain one.
-/

namespace SomeDB

open Lib

/-- The pages of the file behind a pool. -/
abbrev BufferPoolManager.file (n : Nat) (bpm : BufferPoolManager) : CheckedFile n := ⟨bpm.diskManager⟩

/-- The pool of an index is coherent and has a frame for each of the pages of the file, of which `extra` are not yet
counted in the tree. The metadata page is not resident. -/
structure Pooled (n extra : Nat) (t : PoolTree) : Prop where
  coherent : Coherent t.bpm
  size : t.bpm.poolSize = n
  small : n ≤ 65535
  room : t.nodeCount.toNat + extra < n
  exist : ∀ p, t.bpm.diskManager p ≠ none ↔ p.toNat ≤ t.nodeCount.toNat + extra
  count : ∀ data, t.bpm.diskManager 0 = some data → decodeUint32 (data.slice 0 4) = BTREE_INDEX →
    (decodeUint16 (data.slice 4 2)).toNat = t.nodeCount.toNat + extra
  noMeta : frameOf t.bpm 0 = none

namespace Pooled

variable {n extra : Nat} {t : PoolTree}

theorem covers (h : Pooled n extra t) : Covers t.bpm := by
  have hroom := h.room
  refine ⟨fun p hp => ?_, by rw [h.size]; exact h.small⟩
  have hle := (h.exist p).mp hp
  rw [h.size]
  omega

/-- What is not about the pool and the number of pages. -/
theorem congr (h : Pooled n extra t) {t' : PoolTree} (hbpm : t'.bpm = t.bpm) (hcount : t'.nodeCount = t.nodeCount) :
    Pooled n extra t' := by
  refine ⟨hbpm ▸ h.coherent, hbpm ▸ h.size, h.small, hcount ▸ h.room, ?_, ?_, hbpm ▸ h.noMeta⟩
  · rw [hbpm, hcount]
    exact h.exist
  · rw [hbpm, hcount]
    exact h.count

/-- Pages that were made are counted. -/
theorem counted {k : Nat} (hk : k ≤ 2) (h : Pooled n (extra + k) t) :
    Pooled n extra { t with nodeCount := t.nodeCount + UInt16.ofNat k } := by
  have hroom := h.room
  have hsmall := h.small
  have hsum : (t.nodeCount + UInt16.ofNat k).toNat + extra = t.nodeCount.toNat + (extra + k) := by
    rw [UInt16.toNat_add, UInt16.toNat_ofNat', Nat.mod_eq_of_lt (by omega), Nat.mod_eq_of_lt (by omega)]
    omega
  refine ⟨h.coherent, h.size, h.small, ?_, fun p => ?_, fun data hd hmagic => ?_, h.noMeta⟩
  · exact hsum ▸ hroom
  · exact hsum ▸ h.exist p
  · exact (h.count data hd hmagic).trans hsum.symm

/-- A page is written. The metadata page has the counter of the index. -/
theorem flush {I : PoolTree → Prop} {p : PageId} {data : Page} (hI : ∀ t, I t → Pooled n extra t ∧
      (p = 0 → decodeUint32 (data.slice 0 4) = BTREE_INDEX →
        (decodeUint16 (data.slice 4 2)).toNat = t.nodeCount.toNat + extra)) :
    Prog.Follows True (BTree.onStore (BufferPoolManager.file n)) I (Pooled n extra) (BTree.flush p data)
      (BTree.flush p data) := by
  unfold BTree.flush
  refine onBpm_follows fun t u file ht hran hrun => ?_
  obtain ⟨h, hcount⟩ := hI t ht
  obtain ⟨u', bpm', hflush⟩ := hran trivial
  obtain ⟨hp, rfl⟩ := checkedFlush_eq_ok hrun
  obtain ⟨hcoh, hdisk, hsize, habsent⟩ := h.coherent.flushNode h.covers hp hflush
  refine ⟨bpm', hflush, by rw [BufferPoolManager.file, hdisk], hcoh, hsize.trans h.size, h.small, h.room, fun q => ?_,
    fun page hpage hmagic => ?_, habsent 0 (.inr h.noMeta)⟩
  · rw [← h.exist q, hdisk]
    by_cases hq : q = p
    · subst hq
      simpa using hp
    · rw [Disk.write_ne _ _ hq]
  · rw [hdisk] at hpage
    by_cases hp0 : p = 0
    · subst hp0
      rw [Disk.write_same] at hpage
      cases hpage
      exact hcount rfl hmagic
    · rw [Disk.write_ne _ _ (Ne.symm hp0)] at hpage
      exact h.count page hpage hmagic

theorem fetch (p : PageId) : SameOnFile True (BufferPoolManager.file n) (Pooled n) extra extra (BTree.fetch p)
    (BTree.fetch p) := by
  unfold BTree.fetch
  refine onBpm_follows fun t r file h hran hrun => ?_
  obtain ⟨r', bpm', hfetch⟩ := hran trivial
  obtain ⟨hp, hid, hdata, rfl⟩ := checkedFetch_eq_ok hrun
  obtain ⟨f, bpm₁, hcall, h₁⟩ := Prog.bind_eq_ok hfetch
  obtain ⟨page, bpm₂, hat, h₂⟩ := Prog.bind_eq_ok h₁
  obtain ⟨hget, rfl⟩ := pageAt_eq_ok hat
  cases h₂
  obtain ⟨hcoh, hdisk, hsize, -, hothers, page', hget', hpid, hpdata⟩ := h.coherent.fetch h.covers hdata hcall
  cases hget.symm.trans hget'
  have hret : (page.id, page.data) = r := Prod.ext (hpid.trans hid.symm) hpdata
  refine ⟨bpm', hret ▸ hfetch, by rw [BufferPoolManager.file, hdisk], hcoh, hsize.trans h.size, h.small, h.room, ?_, ?_,
    ?_⟩
  · exact hdisk.symm ▸ h.exist
  · exact hdisk.symm ▸ h.count
  · rw [hothers 0 (Ne.symm hp)]
    exact h.noMeta

end Pooled

/-- The new page is the one behind the last page of the file. -/
theorem newBtreeIndexPage_spec {isLeaf : Bool} {d d' : Disk} {pid : PageId}
    (h : newBtreeIndexPage isLeaf d = (.ok pid, d')) : ∃ data, d 0 = some data ∧
      decodeUint32 (data.slice 0 4) = BTREE_INDEX ∧ pid = (decodeUint16 (data.slice 4 2) + 1).toUInt32 ∧
      d' = (d.write 0 (data.blit 4 (encodeUint16 (decodeUint16 (data.slice 4 2) + 1)))).write pid
        (freshNodePage isLeaf) := by
  rw [newBtreeIndexPage] at h
  obtain ⟨data, d₁, hread, h₁⟩ := Prog.bind_eq_ok h
  obtain ⟨hdata, rfl⟩ := readPage_eq_ok hread
  obtain ⟨_, d₂, hassert, h₂⟩ := Prog.bind_eq_ok h₁
  obtain ⟨hmagic, rfl⟩ := assert_of_ok hassert
  cases h₂
  exact ⟨data, hdata, hmagic, rfl, rfl⟩

namespace Pooled

variable {n extra : Nat} {t : PoolTree}

/-- Only pages of the file are resident. -/
theorem resident (h : Pooled n extra t) {q : PageId} (hq : frameOf t.bpm q ≠ none) :
    q.toNat ≤ t.nodeCount.toNat + extra ∧ q ≠ 0 := by
  obtain ⟨rs, hdir⟩ := h.coherent.dir
  obtain ⟨f, hf⟩ := Option.ne_none_iff_exists'.mp hq
  refine ⟨(h.exist q).mp (h.coherent.resident hdir (hdir.frameIn_iff.mp hf)), ?_⟩
  rintro rfl
  exact hq h.noMeta

/-- The disk manager makes a page behind the pool. -/
theorem newPage (h : Pooled n extra t) {isLeaf : Bool} {pid : PageId} {d' : Disk}
    (hrun : newBtreeIndexPage isLeaf t.bpm.diskManager = (.ok pid, d')) (hroom : d' (UInt32.ofNat n) = none) :
    Pooled n (extra + 1) { t with bpm := { t.bpm with diskManager := d' } } := by
  obtain ⟨data, hdata, hmagic, hpid, hd'⟩ := newBtreeIndexPage_spec hrun
  have hcount := h.count data hdata hmagic
  have hlt := h.room
  have hsmall := h.small
  have hnext : (decodeUint16 (data.slice 4 2) + 1).toNat = t.nodeCount.toNat + (extra + 1) := by
    rw [UInt16.toNat_add, UInt16.toNat_one, Nat.mod_eq_of_lt (by omega)]
    omega
  have hid : pid.toNat = t.nodeCount.toNat + (extra + 1) := by
    rw [hpid, UInt16.toNat_toUInt32, hnext]
  have hpid0 : pid ≠ 0 := by
    rintro rfl
    simp only [UInt32.toNat_zero] at hid
    omega
  have hexist : ∀ q, d' q ≠ none ↔ q.toNat ≤ t.nodeCount.toNat + (extra + 1) := by
    intro q
    have hold := h.exist q
    by_cases hq : q = pid
    · subst hq
      simp [hd', hid]
    · rw [hd', Disk.write_ne _ _ hq]
      have hne : q.toNat ≠ pid.toNat := fun heq => hq (UInt32.toNat_inj.mp heq)
      by_cases hq0 : q = 0
      · subst hq0
        simp
      · rw [Disk.write_ne _ _ hq0, hold]
        omega
  refine ⟨h.coherent.direct fun q hq => ?_, h.size, h.small, ?_, hexist, fun page hpage _ => ?_, h.noMeta⟩
  · obtain ⟨hle, hq0⟩ := h.resident hq
    have hne : q ≠ pid := by
      rintro rfl
      omega
    rw [hd', Disk.write_ne _ _ hne, Disk.write_ne _ _ hq0]
  · have hno := mt (hexist (UInt32.ofNat n)).mpr (not_not.mpr hroom)
    rw [UInt32.toNat_ofNat', Nat.mod_eq_of_lt (by omega)] at hno
    exact Nat.lt_of_not_le hno
  · have hmeta : d' 0 = some (data.blit 4 (encodeUint16 (decodeUint16 (data.slice 4 2) + 1))) := by
      rw [hd', Disk.write_ne _ _ (Ne.symm hpid0), Disk.write_same]
    cases hmeta.symm.trans hpage
    rw [Block.slice_blit_of_length _ (by simp) (by omega), decodeUint16_encodeUint16]
    exact hnext

end Pooled

/-- What the index keeps of its pool makes the pool as good as a checked file. -/
theorem pooled_followsFile (n : Nat) : FollowsFile True (BufferPoolManager.file n) (Pooled n) := by
  refine ⟨fun h hbpm hcount => h.congr hbpm hcount, fun hj h => h.counted hj, fun k p => Pooled.fetch p,
    fun k p data hnode => Pooled.flush fun t h => ⟨h, fun _ hmagic => absurd hmagic hnode⟩, ?_, fun k isLeaf => ?_⟩
  · unfold BTree.flushMeta
    refine .bind (J := Pooled n 0) ?_ fun u => .get_bind_of fun t => Pooled.flush ?_
    · intro t u t' h _ hrun
      cases hrun
      exact ⟨_, rfl, rfl, h.congr rfl rfl⟩
    · rintro t' ⟨h, rfl⟩
      refine ⟨h, fun _ _ => ?_⟩
      unfold BTree.metaPage
      simp only
      rw [Block.slice_blit_disjoint _ (by simp), Block.slice_blit_disjoint _ (by simp),
        Block.slice_blit_of_length _ (by simp) (by omega), decodeUint16_encodeUint16]
      rfl
  · unfold BTree.newIndexPage
    refine onBpm_follows fun t p file h _ hrun => ?_
    obtain ⟨hpage, hroom⟩ := checkedOnDisk_eq_ok hrun
    have hcall : onDiskManager (newBtreeIndexPage isLeaf) t.bpm =
        (.ok p, { t.bpm with diskManager := file.disk }) := Prog.zoom_ok hpage
    exact ⟨_, hcall, rfl, h.newPage hpage hroom⟩

end SomeDB
