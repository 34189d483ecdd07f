import SomeDB.Disk.Bpm

/-!
# The page table as a directory of the frames

`DirInv .. rs`: the page table maps the page numbers of `rs` to their frames, each frame holds the page
that is mapped to it, and the other frames are free. Calls keep it when no frame is evicted (the table
keeps the page of an evicted frame) and no page is flushed whose bucket has another page (`hash_remove`
frees the key of one that stays).
-/

namespace SomeDB

open Lib

/-- The page table is an exact directory of the frames. -/
structure ExactDirectory (bpm : BufferPoolManager) : Prop where
  inj : ∀ p q f, frameOf bpm p = some f → frameOf bpm q = some f → p = q
  below : ∀ p f, frameOf bpm p = some f → f < bpm.poolSize
  id : ∀ p f, frameOf bpm p = some f → ∃ page : BpmPage, bpm.pages[f]? = some page ∧ page.id = p
  free : ∀ f < bpm.poolSize, bpm.freeList[f]? = some false ↔ ∃ p, frameOf bpm p = some f

/-- The page table holds the entries `rs`, page numbers with frames. -/
structure DirInv (poolSize : Nat) (pages : List BpmPage) (pageTable : HashTable FrameId) (freeList : List Bool)
    (rs : List (Nat × FrameId)) : Prop where
  table : pageTable.Refines (poolSize % 65536) (numbered rs)
  numbers : (rs.map (·.1)).Nodup
  frames : (rs.map (·.2)).Nodup
  small : ∀ x ∈ rs, x.1 < 10000
  length : pages.length = poolSize
  ids : ∀ x ∈ rs, ∃ page : BpmPage, pages[x.2]? = some page ∧ page.id.toNat = x.1
  free : ∀ f < poolSize, freeList[f]? = some false ↔ f ∈ rs.map (·.2)

namespace DirInv

variable {poolSize : Nat} {pages : List BpmPage} {ht ht' : HashTable FrameId} {freeList : List Bool}
  {rs : List (Nat × FrameId)} {pid : PageId} {f : FrameId}

theorem frameIn_iff (h : DirInv poolSize pages ht freeList rs) :
    frameIn ht pid = some f ↔ (pid.toNat, f) ∈ rs := by
  rw [frameIn]
  by_cases hlt : pid.toNat < 2147483648
  · rw [sprintfD_of_lt hlt, h.table.hashFind_ok (by rw [atoi_sprintfU hlt]; omega)]
    cases hnumbered : numbered rs (sprintfU pid.toNat) with
    | none =>
      refine iff_of_false (by simp) fun hmem => ?_
      rw [numbered_of_mem h.numbers hmem] at hnumbered
      cases hnumbered
    | some g =>
      obtain ⟨n, hn, he⟩ := mem_of_numbered hnumbered
      obtain rfl := sprintfU_inj he
      simp only [Option.map_some, Bool.false_eq_true, if_false, Option.some.injEq]
      constructor
      · rintro rfl
        exact hn
      · intro hmem
        have := numbered_of_mem h.numbers hmem
        rw [hnumbered] at this
        exact Option.some.inj this
  · refine iff_of_false ?_ fun hmem => ?_
    · rcases hrun : hashFind true (sprintfD pid) ht with ⟨_ | o, ht₁⟩
      · simp
      · obtain ⟨rfl, -⟩ := h.table.hashFind_of_ok hrun
        have hnone : numbered rs (sprintfD pid) = none := by
          rw [Option.eq_none_iff_forall_ne_some]
          intro d hd
          obtain ⟨n, -, he⟩ := mem_of_numbered hd
          exact sprintfD_ne_sprintfU hlt n he
        simp [hnone]
    · have := h.small _ hmem
      simp only at this
      omega

theorem frameIn_eq_none (h : DirInv poolSize pages ht freeList rs) :
    frameIn ht pid = none ↔ pid.toNat ∉ rs.map (·.1) := by
  rw [Option.eq_none_iff_forall_ne_some]
  constructor
  · intro hnone hmem
    obtain ⟨⟨n, f⟩, hx, rfl⟩ := List.mem_map.mp hmem
    exact hnone f (h.frameIn_iff.mpr hx)
  · intro hmem f hf
    exact hmem (List.mem_map.mpr ⟨_, h.frameIn_iff.mp hf, rfl⟩)

theorem below (h : DirInv poolSize pages ht freeList rs) {x : Nat × FrameId} (hx : x ∈ rs) :
    x.2 < poolSize := by
  obtain ⟨page, hpage, -⟩ := h.ids x hx
  have := (List.getElem?_eq_some_iff.mp hpage).1
  rwa [h.length] at this

theorem init (poolSize : Nat) (d : Disk) (hpos : 0 < poolSize % 65536) :
    DirInv poolSize (newBpm poolSize d).pages (newBpm poolSize d).pageTable (newBpm poolSize d).freeList [] := by
  have hsize : (UInt32.ofNat poolSize).toUInt16.toNat = poolSize % 65536 := by
    rw [UInt32.toNat_toUInt16, UInt32.toNat_ofNat']
    omega
  have htable := HashTable.Refines.init_of_size (α := FrameId) (UInt32.ofNat poolSize) (by omega)
  rw [hsize] at htable
  refine ⟨htable, by simp, by simp, by simp, by simp [newBpm], by simp, fun f hf => ?_⟩
  simp [newBpm, hf]

/-- A page changes, but not its id. -/
theorem setPage (h : DirInv poolSize pages ht freeList rs) {old page : BpmPage} (hold : pages[f]? = some old)
    (hid : page.id = old.id) : DirInv poolSize (pages.set f page) ht freeList rs := by
  refine ⟨h.table, h.numbers, h.frames, h.small, by rw [List.length_set]; exact h.length, fun x hx => ?_, h.free⟩
  obtain ⟨page', hpage', hx'⟩ := h.ids x hx
  by_cases hf : x.2 = f
  · rw [hf] at hpage' ⊢
    rw [hold] at hpage'
    cases hpage'
    exact ⟨page, List.getElem?_set_self (List.getElem?_eq_some_iff.mp hold).1, by rw [hid]; exact hx'⟩
  · exact ⟨page', by rw [List.getElem?_set_ne (Ne.symm hf)]; exact hpage', hx'⟩

/-- A page comes into a free frame. -/
theorem add (h : DirInv poolSize pages ht freeList rs) (hfree : freeList[f]? = some true)
    (hf : f < pages.length) (hnew : pid.toNat ∉ rs.map (·.1)) (hsmall : pid.toNat < 10000) {u : Unit}
    (hinsert : hashInsert true (sprintfU pid.toNat) f ht = (.ok u, ht')) {page : BpmPage}
    (hid : page.id = pid) :
    DirInv poolSize (pages.set f page) ht' (freeList.set f false) ((pid.toNat, f) :: rs) := by
  have hlt : f < freeList.length := (List.getElem?_eq_some_iff.mp hfree).1
  have hfresh : f ∉ rs.map (·.2) := by
    intro hmem
    have := (h.free f (by rw [← h.length]; exact hf)).mpr hmem
    rw [hfree] at this
    cases this
  have hatoi : 0 ≤ atoi (sprintfU pid.toNat) := by
    rw [atoi_sprintfU (by omega)]
    omega
  obtain ⟨ht₁, hrun, htable⟩ := h.table.hashInsert_ok hatoi true f
  rw [hrun] at hinsert
  cases hinsert
  refine ⟨?_, List.nodup_cons.mpr ⟨hnew, h.numbers⟩, List.nodup_cons.mpr ⟨hfresh, h.frames⟩, fun x hx => ?_,
    by rw [List.length_set]; exact h.length, fun x hx => ?_, fun g hg => ?_⟩
  · rw [numbered_cons]
    exact htable
  · rcases List.mem_cons.mp hx with rfl | hx
    · exact hsmall
    · exact h.small x hx
  · rcases List.mem_cons.mp hx with rfl | hx
    · exact ⟨page, List.getElem?_set_self hf, by rw [hid]⟩
    · obtain ⟨page', hpage', hx'⟩ := h.ids x hx
      have hne : f ≠ x.2 := fun he => hfresh (he ▸ List.mem_map_of_mem hx)
      exact ⟨page', by rw [List.getElem?_set_ne hne]; exact hpage', hx'⟩
  · rw [List.map_cons, List.mem_cons]
    by_cases hgf : g = f
    · subst hgf
      simp [List.getElem?_set_self hlt]
    · rw [List.getElem?_set_ne (Ne.symm hgf), h.free g hg]
      simp [hgf]

/-- A page that has its bucket for itself is taken out. -/
theorem remove {rs₁ rs₂ : List (Nat × FrameId)} (h : DirInv poolSize pages ht freeList (rs₁ ++ (pid.toNat, f) :: rs₂))
    (halone : ∀ q : PageId, q ≠ pid → frameIn ht q ≠ none → hash (sprintfD q) ht ≠ hash (sprintfD pid) ht)
    {removed : Removed} (hremove : hashRemove true (sprintfD pid) ht = (.ok removed, ht')) :
    DirInv poolSize pages ht' (freeList.set f true) (rs₁ ++ rs₂) := by
  have hmem : (pid.toNat, f) ∈ rs₁ ++ (pid.toNat, f) :: rs₂ := by simp
  have hsmall := h.small _ hmem
  simp only at hsmall
  have hsub : rs₁ ++ rs₂ ⊆ rs₁ ++ (pid.toNat, f) :: rs₂ := ((List.sublist_cons_self ..).append_left rs₁).subset
  have hnumbers := h.numbers
  have hframes := h.frames
  have hf : f < freeList.length := by
    have hfalse := (h.free f (h.below hmem)).mpr (List.mem_map_of_mem hmem)
    exact (List.getElem?_eq_some_iff.mp hfalse).1
  have hkey : sprintfD pid = sprintfU pid.toNat := sprintfD_of_lt (by omega)
  have hatoi : 0 ≤ atoi (sprintfU pid.toNat) := by
    rw [atoi_sprintfU (by omega)]
    omega
  obtain ⟨r, ht₁, hrun, htable, -⟩ := h.table.hashRemove_ok hatoi true fun _ k hk heq => by
      obtain ⟨g, hg⟩ := Option.isSome_iff_exists.mp hk
      obtain ⟨n, hn, rfl⟩ := mem_of_numbered hg
      have hn' := h.small _ hn
      simp only at hn'
      -- the number of a page
      have htoNat : (UInt32.ofNat n).toNat = n := by
        rw [UInt32.toNat_ofNat', Nat.mod_eq_of_lt (by omega)]
      by_contra hne
      refine halone (UInt32.ofNat n) (fun he => hne (by rw [← he, htoNat])) ?_ ?_
      · have hframe : frameIn ht (UInt32.ofNat n) = some g := h.frameIn_iff.mpr (by rw [htoNat]; exact hn)
        rw [hframe]
        simp
      · rw [hkey, sprintfD_of_lt (by omega), htoNat]
        exact heq
  rw [hkey, hrun] at hremove
  cases hremove
  rw [show sprintfU pid.toNat = sprintfU (pid.toNat, f).1 from rfl, numbered_remove hnumbers] at htable
  rw [List.map_append, List.map_cons] at hnumbers hframes
  have hnot : f ∉ (rs₁ ++ rs₂).map (·.2) := by
    rw [List.map_append]
    exact (List.nodup_middle.mp hframes).notMem
  refine ⟨htable, ?_, ?_, fun x hx => h.small x (hsub hx), h.length, fun x hx => h.ids x (hsub hx), fun g hg => ?_⟩
  · rw [List.map_append]
    exact (List.nodup_middle.mp hnumbers).of_cons
  · rw [List.map_append]
    exact (List.nodup_middle.mp hframes).of_cons
  · by_cases hgf : g = f
    · subst hgf
      rw [List.getElem?_set_self hf]
      simpa using hnot
    · rw [List.getElem?_set_ne (Ne.symm hgf), h.free g hg]
      simp [hgf]

theorem exact {bpm : BufferPoolManager}
    (h : DirInv bpm.poolSize bpm.pages bpm.pageTable bpm.freeList rs) : ExactDirectory bpm where
  inj p q f hp hq := by
    have hp' := h.frameIn_iff.mp hp
    have hq' := h.frameIn_iff.mp hq
    have heq := List.inj_on_of_nodup_map h.frames hp' hq' rfl
    exact UInt32.toNat_inj.mp (congrArg Prod.fst heq)
  below p f hp := h.below (h.frameIn_iff.mp hp)
  id p f hp := by
    obtain ⟨page, hpage, hid⟩ := h.ids _ (h.frameIn_iff.mp hp)
    exact ⟨page, hpage, UInt32.toNat_inj.mp hid⟩
  free f hf := by
    rw [h.free f hf]
    constructor
    · intro hmem
      obtain ⟨⟨n, g⟩, hx, rfl⟩ := List.mem_map.mp hmem
      have hn := h.small _ hx
      simp only at hn
      refine ⟨UInt32.ofNat n, h.frameIn_iff.mpr ?_⟩
      rwa [UInt32.toNat_ofNat', Nat.mod_eq_of_lt (by omega)]
    · rintro ⟨p, hp⟩
      exact List.mem_map.mpr ⟨_, h.frameIn_iff.mp hp, rfl⟩

end DirInv

/-! ## Runs of calls -/

/-- When a call keeps the directory exact. -/
def DirSafe (bpm : BufferPoolManager) : BpmOp → Prop
  | .allocate =>
    match (newBtreeIndexPage false bpm.diskManager).1 with
    | .ok pid => frameOf bpm pid = none → true ∈ bpm.freeList
    | .error _ => True
  | .fetch pid => frameOf bpm pid = none → true ∈ bpm.freeList
  | .unpin _ _ => True
  | .write _ _ => True
  | .flush pid => frameOf bpm pid ≠ none → ∀ q, q ≠ pid → frameOf bpm q ≠ none →
    hash (sprintfD q) bpm.pageTable ≠ hash (sprintfD pid) bpm.pageTable

/-- The parts of the pool that `DirInv` is about. -/
abbrev BufferPoolManager.DirInv (bpm : BufferPoolManager) (rs : List (Nat × FrameId)) : Prop :=
  SomeDB.DirInv bpm.poolSize bpm.pages bpm.pageTable bpm.freeList rs

section Steps

variable {bpm bpm' bpm₁ : BufferPoolManager} {pid : PageId} {f : FrameId} {rs : List (Nat × FrameId)}

theorem findIdx_of_mem {freeList : List Bool} (h : true ∈ freeList) :
    ∃ f, freeList.findIdx? id = some f ∧ freeList[f]? = some true := by
  cases hidx : freeList.findIdx? id with
  | none => exact absurd (List.findIdx?_eq_none_iff.mp hidx true h) (by simp)
  | some f => exact ⟨f, rfl, free_of_findIdx hidx⟩

/-- A page that is put into the pool gets a free frame. -/
theorem Paged.dirInv {o : Option FrameId} (hpaged : Paged pid bpm o bpm') (h : bpm.DirInv rs)
    (hsafe : frameOf bpm pid = none → true ∈ bpm.freeList) :
    (∃ f, o = some f ∧ (pid.toNat, f) ∈ rs ∧ bpm' = bpm) ∨
      ∃ f, o = some f ∧ pid.toNat ∉ rs.map (·.1) ∧ bpm'.DirInv ((pid.toNat, f) :: rs) ∧
        bpm'.poolSize = bpm.poolSize ∧ bpm'.diskManager = bpm.diskManager ∧
        bpm'.pages = bpm.pages.set f ⟨Block.zero, pid, 1, false⟩ := by
  cases hpaged with
  | found hframe => exact .inl ⟨_, rfl, h.frameIn_iff.mp hframe, rfl⟩
  | noFrame hframe htaken =>
    obtain ⟨f, hidx, -⟩ := findIdx_of_mem (hsafe hframe)
    cases htaken with
    | noFrame hfree hevict => rw [hidx] at hfree; cases hfree
  | added hframe htaken hfid hlen htable hreplacer =>
    obtain ⟨f, hidx, htrue⟩ := findIdx_of_mem (hsafe hframe)
    cases htaken with
    | free hfree =>
      rw [hidx] at hfree
      cases hfree
      have hnew := h.frameIn_eq_none.mp hframe
      exact .inr ⟨_, rfl, hnew, h.add htrue hfid hnew (lt_of_length_sprintfU hlen) htable rfl, rfl, rfl, rfl⟩
    | clean hfree hevict hpage hdirty => rw [hidx] at hfree; cases hfree
    | dirty hfree hevict hpage hdirty hflush => rw [hidx] at hfree; cases hfree

theorem PagedWithin.paged {n : Nat} (hpaged : PagedWithin pid n bpm f bpm')
    (hsafe : frameOf bpm pid = none → true ∈ bpm.freeList) : Paged pid bpm (some f) bpm' := by
  cases hpaged with
  | done hpaged => exact hpaged
  | again hpaged hrest =>
    cases hpaged with
    | noFrame hframe htaken =>
      obtain ⟨f, hidx, -⟩ := findIdx_of_mem (hsafe hframe)
      cases htaken with
      | noFrame hfree hevict => rw [hidx] at hfree; cases hfree

/-- A fetch adds its page, and leaves the disk as it is. -/
theorem Fetched.dirInv (hfetched : Fetched pid bpm f bpm') (h : bpm.DirInv rs)
    (hsafe : frameOf bpm pid = none → true ∈ bpm.freeList) :
    ∃ rs', bpm'.DirInv rs' ∧ (pid.toNat, f) ∈ rs' ∧ (∀ x ∈ rs', x ∈ rs ∨ x.1 = pid.toNat) ∧
      bpm'.poolSize = bpm.poolSize ∧ bpm'.diskManager = bpm.diskManager := by
  cases hfetched with
  | hit hframe hpage => exact ⟨rs, h.setPage hpage rfl, h.frameIn_iff.mp hframe, fun x hx => .inl hx, rfl, rfl⟩
  | miss hframe _ hpaged hpage hdata =>
    rcases hpaged.dirInv h hsafe with ⟨g, -, hmem, -⟩ | ⟨g, hg, -, h', hsize, hdisk, -⟩
    · have hsome := h.frameIn_iff.mpr hmem
      cases hframe.symm.trans hsome
    · cases hg
      refine ⟨_, h'.setPage hpage rfl, List.mem_cons_self, fun x hx => ?_, hsize, hdisk⟩
      rcases List.mem_cons.mp hx with rfl | hx
      · exact .inr rfl
      · exact .inl hx

theorem Unpinned.dirInv {isDirty r : Bool} (hunpinned : Unpinned pid isDirty bpm r bpm') (h : bpm.DirInv rs) :
    bpm'.DirInv rs ∧ bpm'.diskManager = bpm.diskManager := by
  cases hunpinned with
  | absent hframe => exact ⟨h, rfl⟩
  | zero hframe hpage hpin => exact ⟨h, rfl⟩
  | last hframe hpage hpin hreplacer => exact ⟨h.setPage hpage rfl, rfl⟩
  | more hframe hpage hzero hone => exact ⟨h.setPage hpage rfl, rfl⟩

/-- A flush takes its page out and writes it. -/
theorem Flushed.dirInv {r : Bool} (hflushed : Flushed pid bpm r bpm') (h : bpm.DirInv rs)
    (hsafe : DirSafe bpm (.flush pid)) :
    ∃ rs', bpm'.DirInv rs' ∧ (∀ x ∈ rs', x ∈ rs ∧ x.1 ≠ pid.toNat) ∧
      ((frameOf bpm pid = none ∧ bpm'.diskManager = bpm.diskManager) ∨
        ∃ (f : FrameId) (page : BpmPage), frameOf bpm pid = some f ∧ bpm.pages[f]? = some page ∧
          bpm'.diskManager = bpm.diskManager.write pid page.data) := by
  cases hflushed with
  | absent hframe =>
    refine ⟨rs, h, fun x hx => ⟨hx, fun heq => ?_⟩, .inl ⟨hframe, rfl⟩⟩
    exact h.frameIn_eq_none.mp hframe (heq ▸ List.mem_map_of_mem hx)
  | written hframe hpage htable hremoved hreplacer =>
    obtain ⟨rs₁, rs₂, rfl⟩ := List.append_of_mem (h.frameIn_iff.mp hframe)
    refine ⟨_, h.remove (hsafe (by rw [hframe]; simp)) htable, fun x hx => ⟨?_, ?_⟩,
      .inr ⟨_, _, hframe, hpage, rfl⟩⟩
    · rcases List.mem_append.mp hx with hx | hx
      · exact List.mem_append_left _ hx
      · exact List.mem_append_right _ (List.mem_cons_of_mem _ hx)
    · have hnumbers := h.numbers
      rw [List.map_append, List.map_cons] at hnumbers
      have hnot := (List.nodup_middle.mp hnumbers).notMem
      rw [← List.map_append] at hnot
      exact fun heq => hnot (List.mem_map.mpr ⟨x, hx, heq⟩)

theorem bpmOp_dirInv {op : BpmOp} {o : Option FrameId} (hrun : bpmOp op bpm = (.ok o, bpm')) (h : bpm.DirInv rs)
    (hsafe : DirSafe bpm op) : ∃ rs', bpm'.DirInv rs' := by
  cases op with
  | allocate =>
    obtain ⟨f, bpm₁, hcall, hret⟩ := Prog.bind_eq_ok hrun
    cases hret
    obtain ⟨pid, d, hnew, hpaged⟩ := allocateNewPage_eq_ok hcall
    simp only [DirSafe, hnew] at hsafe
    rcases (hpaged.paged hsafe).dirInv h hsafe with ⟨g, -, -, rfl⟩ | ⟨g, -, -, h', -⟩
    · exact ⟨rs, h⟩
    · exact ⟨_, h'⟩
  | fetch pid =>
    obtain ⟨f, bpm₁, hcall, hret⟩ := Prog.bind_eq_ok hrun
    cases hret
    obtain ⟨rs', h', -⟩ := (fetchBpmPage_eq_ok hcall).dirInv h hsafe
    exact ⟨rs', h'⟩
  | unpin pid isDirty =>
    obtain ⟨f, bpm₁, hcall, hret⟩ := Prog.bind_eq_ok hrun
    cases hret
    exact ⟨rs, ((unpinPage_eq_ok hcall).dirInv h).1⟩
  | write f data =>
    obtain ⟨_, bpm₁, hcall, hret⟩ := Prog.bind_eq_ok hrun
    cases hret
    obtain ⟨page, hpage, rfl⟩ := writeToFrame_eq_ok hcall
    exact ⟨rs, h.setPage hpage rfl⟩
  | flush pid =>
    obtain ⟨f, bpm₁, hcall, hret⟩ := Prog.bind_eq_ok hrun
    cases hret
    obtain ⟨rs', h', -⟩ := (flushPage_eq_ok hcall).dirInv h hsafe
    exact ⟨rs', h'⟩

/-- A pool whose size is a multiple of 65536 has a table of size 0: no lookup returns. -/
theorem findFrame_ne_ok (hsize : bpm.pageTable.size = 0) (o : Option FrameId) :
    findFrame pid bpm ≠ (.ok o, bpm') := by
  intro h
  rw [findFrame] at h
  obtain ⟨found, bpm₁, hfind, -⟩ := Prog.bind_eq_ok h
  obtain ⟨ht, hrun, -⟩ := Prog.zoom_eq_ok hfind
  rw [hashFind] at hrun
  obtain ⟨b, ht₁, hbucket, -⟩ := Prog.bind_eq_ok hrun
  rw [bucketOf, Prog.get_bind] at hbucket
  obtain ⟨i, hi, -⟩ := Prog.lift_bind_eq_ok hbucket
  rw [hash, if_pos hsize] at hi
  cases hi

/-- The pool without a table: all frames are free. -/
def NoTable (bpm : BufferPoolManager) : Prop :=
  bpm.pageTable.size = 0 ∧ ∀ f : FrameId, bpm.freeList[f]? ≠ some false

theorem NoTable.init {poolSize : Nat} (d : Disk) (hpos : ¬ 0 < poolSize % 65536) : NoTable (newBpm poolSize d) := by
  constructor
  · have htoNat : (UInt32.ofNat poolSize).toUInt16.toNat = poolSize % 65536 := by
      rw [UInt32.toNat_toUInt16, UInt32.toNat_ofNat']
      omega
    have hzero : (newBpm poolSize d).pageTable.size.toNat = (0 : UInt16).toNat := by
      have : (0 : UInt16).toNat = 0 := rfl
      rw [this]
      exact htoNat.trans (by omega)
    exact UInt16.toNat_inj.mp hzero
  · intro f hf
    rw [newBpm, List.getElem?_replicate] at hf
    split at hf <;> cases hf

theorem NoTable.exact (h : NoTable bpm) : ExactDirectory bpm := by
  have hnone : ∀ p f, frameOf bpm p ≠ some f := by
    intro p f hf
    rw [frameOf, frameIn] at hf
    have hrun : (hashFind true (sprintfD p) bpm.pageTable).1 = .error .divByZero := by
      rw [hashFind, bucketOf, Prog.bind_assoc_apply, Prog.get_bind, hash, if_pos h.1]
      rfl
    rw [hrun] at hf
    cases hf
  refine ⟨fun p q f hp _ => absurd hp (hnone p f), fun p f hp => absurd hp (hnone p f),
    fun p f hp => absurd hp (hnone p f), fun f _ => iff_of_false (h.2 f) ?_⟩
  rintro ⟨p, hp⟩
  exact hnone p f hp

theorem bpmOp_noTable {op : BpmOp} {o : Option FrameId} (hrun : bpmOp op bpm = (.ok o, bpm')) (h : NoTable bpm) :
    NoTable bpm' := by
  cases op with
  | allocate =>
    obtain ⟨f, bpm₁, hcall, -⟩ := Prog.bind_eq_ok hrun
    obtain ⟨pid, bpm₂, hnew, hloop⟩ := Prog.bind_eq_ok hcall
    obtain ⟨d, -, rfl⟩ := Prog.zoom_eq_ok hnew
    obtain ⟨o, bpm₃, hpage, -⟩ := Prog.bind_eq_ok hloop
    obtain ⟨o, bpm₄, hfind, -⟩ := Prog.bind_eq_ok hpage
    have hsize : ({ bpm with diskManager := d } : BufferPoolManager).pageTable.size = 0 := h.1
    exact absurd hfind (findFrame_ne_ok hsize o)
  | fetch pid =>
    obtain ⟨f, bpm₁, hcall, -⟩ := Prog.bind_eq_ok hrun
    obtain ⟨o, bpm₂, hfind, -⟩ := Prog.bind_eq_ok hcall
    exact absurd hfind (findFrame_ne_ok h.1 o)
  | unpin pid isDirty =>
    obtain ⟨f, bpm₁, hcall, -⟩ := Prog.bind_eq_ok hrun
    obtain ⟨o, bpm₂, hfind, -⟩ := Prog.bind_eq_ok hcall
    exact absurd hfind (findFrame_ne_ok h.1 o)
  | write f data =>
    obtain ⟨_, bpm₁, hcall, hret⟩ := Prog.bind_eq_ok hrun
    cases hret
    obtain ⟨page, hpage, rfl⟩ := writeToFrame_eq_ok hcall
    exact h
  | flush pid =>
    obtain ⟨f, bpm₁, hcall, -⟩ := Prog.bind_eq_ok hrun
    obtain ⟨o, bpm₂, hfind, -⟩ := Prog.bind_eq_ok hcall
    exact absurd hfind (findFrame_ne_ok h.1 o)

end Steps

/-- In every state that a run of safe calls reaches, the page table is an exact directory of the frames. -/
theorem bpm_run_exactDirectory {poolSize : Nat} {d : Disk} {ops : List BpmOp} {os : List (Option FrameId)}
    {bpm : BufferPoolManager} (hsafe : Prog.Meets bpmOp DirSafe ops (newBpm poolSize d))
    (hrun : Prog.runAll bpmOp ops (newBpm poolSize d) = (.ok os, bpm)) : ExactDirectory bpm := by
  by_cases hpos : 0 < poolSize % 65536
  · have hstep : ∀ (bpm : BufferPoolManager) (op : BpmOp) (o : Option FrameId) (bpm' : BufferPoolManager),
        (∃ rs, bpm.DirInv rs) → DirSafe bpm op → bpmOp op bpm = (.ok o, bpm') → ∃ rs, bpm'.DirInv rs := by
      rintro bpm op o bpm' ⟨rs, h⟩ hop hstep
      exact bpmOp_dirInv hstep h hop
    obtain ⟨rs, h⟩ := Prog.runAll_inv_of_ok (fun _ bpm => ∃ rs, bpm.DirInv rs) (fun _ => hstep)
      ⟨[], DirInv.init poolSize d hpos⟩ hsafe hrun
    exact h.exact
  · have h : NoTable bpm := Prog.runAll_inv_of_ok (fun _ bpm => NoTable bpm)
      (fun _ bpm op o bpm' h _ hstep => bpmOp_noTable hstep h) (NoTable.init d hpos) hsafe hrun
    exact h.exact

theorem bpm_run_exactDirectory_two : ∃ os bpm,
    Prog.runAll bpmOp [.allocate, .fetch 0] (newBpm 2 (createBtreeIndex 2)) = (.ok os, bpm) ∧
      ExactDirectory bpm := by
  obtain ⟨os, hrun⟩ := Prog.eq_ok_of_isOk (m := Prog.runAll bpmOp [.allocate, .fetch 0])
    (s := newBpm 2 (createBtreeIndex 2)) (by decide)
  have hsafe : Prog.Meets bpmOp DirSafe [.allocate, .fetch 0] (newBpm 2 (createBtreeIndex 2)) := by
    obtain ⟨o, hallocate⟩ := Prog.eq_ok_of_isOk (m := bpmOp .allocate) (s := newBpm 2 (createBtreeIndex 2))
      (by decide)
    refine ⟨fun _ => by decide, ?_⟩
    rw [hallocate]
    refine ⟨fun _ => by decide, ?_⟩
    split <;> trivial
  exact ⟨os, _, hrun, bpm_run_exactDirectory hsafe hrun⟩

/-- The frame of the metadata page is evicted for a new page: the table has both pages in frame 0. -/
theorem bpm_run_exactDirectory_fails : ∃ os bpm,
    Prog.runAll bpmOp [.fetch 0, .unpin 0 false, .unpin 0 false, .allocate] (newBpm 1 (createBtreeIndex 2)) =
      (.ok os, bpm) ∧ ¬ ExactDirectory bpm := by
  obtain ⟨os, hrun⟩ := Prog.eq_ok_of_isOk
    (m := Prog.runAll bpmOp [.fetch 0, .unpin 0 false, .unpin 0 false, .allocate])
    (s := newBpm 1 (createBtreeIndex 2)) (by decide)
  refine ⟨os, _, hrun, fun h => ?_⟩
  exact absurd (h.inj 0 1 0 (by decide) (by decide)) (by decide)

end SomeDB
