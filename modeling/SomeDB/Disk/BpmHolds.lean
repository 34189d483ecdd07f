import Mathlib.Data.Finset.Card
import SomeDB.Disk.BpmDirectory

/-!
# The pins that a caller leaves

`PinsTaken b held bpm`: since the state `b` of the pool, pins were taken only on pages of `held`. A fetch adds
its page to `held`, and nothing but `flush_page` takes a page out, as the page is not resident after it.
While there is a free frame or the page is resident, no frame is evicted for it.
-/

namespace SomeDB

open Lib

/-- The number of free frames. -/
abbrev freeFrames (bpm : BufferPoolManager) : Nat := bpm.freeList.count true

/-- `hash_find` does not return null for the page: it is resident, or its bucket cannot be read. -/
def Present (bpm : BufferPoolManager) (p : PageId) : Prop := found bpm.pageTable (sprintfD p) ≠ .ok none

/-- The pin count of a resident page. -/
def pinsOf (bpm : BufferPoolManager) (p : PageId) : Option Int :=
  (frameOf bpm p).bind fun f => bpm.pages[f]?.map (·.pinCount)

/-- What a fetch of the page returns. -/
def contentOf (bpm : BufferPoolManager) (p : PageId) : Option Page :=
  match frameOf bpm p with
  | some f => bpm.pages[f]?.map (·.data)
  | none => bpm.diskManager p

/-- Every resident page has the pin count it had in `b`, and pages that were not resident there have none. -/
def PinsKept (b bpm : BufferPoolManager) : Prop := ∀ p c, pinsOf bpm p = some c → c = (pinsOf b p).getD 0

/-- Every resident page has a frame of its own, which is not free and holds that page. -/
structure OwnFrames (bpm : BufferPoolManager) : Prop where
  inj : ∀ p q f, frameOf bpm p = some f → frameOf bpm q = some f → p = q
  used : ∀ p f, frameOf bpm p = some f → bpm.freeList[f]? = some false
  ids : ∀ p f page, frameOf bpm p = some f → bpm.pages[f]? = some page → page.id = p

/-- The pages of a pool have frames of their own, and pins were taken on pages of `held` only. -/
structure PinsTaken (b : BufferPoolManager) (held : List PageId) (bpm : BufferPoolManager) : Prop
    extends OwnFrames bpm where
  pins : ∀ p c, p ∉ held → pinsOf bpm p = some c → c = (pinsOf b p).getD 0

section Tables

variable {ht ht' : HashTable FrameId} {p : PageId}

theorem frameIn_congr (h : found ht' (sprintfD p) = found ht (sprintfD p)) : frameIn ht' p = frameIn ht p := by
  rw [frameIn, frameIn]
  rw [found, found] at h
  rw [h]

theorem frameIn_of_error {e : Fault} (h : found ht (sprintfD p) = .error e) : frameIn ht p = none := by
  rw [found] at h
  rw [frameIn, h]

theorem frameIn_of_absent (h : found ht (sprintfD p) = .ok none) : frameIn ht p = none := by
  rw [found] at h
  rw [frameIn, h]

/-- Nothing is found in a table whose first elements were all freed. -/
theorem frameIn_of_freed (h : (ht.arr.all fun b => b.head.all (·.freed)) = true)
    (p : PageId) : frameIn ht p = none := by
  cases hi : hash (sprintfD p) ht with
  | error e =>
    have hrun : (hashFind true (sprintfD p) ht).1 = .error e := by
      rw [hashFind, bucketOf, Prog.bind_assoc_apply, Prog.get_bind, hi]
      rfl
    exact frameIn_of_error hrun
  | ok i =>
    cases hb : ht.arr[i]? with
    | none =>
      have hrun : (hashFind true (sprintfD p) ht).1 = .error .outOfBounds := by
        rw [hashFind, bucketOf, Prog.bind_assoc_apply, Prog.get_bind, hi, Prog.bind_assoc_apply, Prog.lift_ok_bind, hb]
        rfl
      exact frameIn_of_error hrun
    | some b =>
      have hfind := found_eq hi hb
      have hhead := List.all_eq_true.mp h b (List.mem_of_getElem? hb)
      rw [Bucket.find] at hfind
      cases hel : b.head with
      | none =>
        rw [hel] at hfind
        exact frameIn_of_absent hfind
      | some el =>
        have hfreed : el.freed = true := by simpa [hel] using hhead
        have hkey : el.keyIs true (sprintfD p) = .error .freed := by simp [HashEl.keyIs, hfreed]
        simp only [hel] at hfind
        rw [findNext, hkey] at hfind
        exact frameIn_of_error hfind

theorem present_of_frame {bpm : BufferPoolManager} {f : FrameId} (h : frameOf bpm p = some f) : Present bpm p := by
  intro habsent
  rw [frameOf, frameIn_of_absent habsent] at h
  cases h

/-- The key that `add_to_pagetable` makes is looked up for no other page. -/
theorem sprintfD_ne {q : PageId} (hq : q ≠ p) : sprintfD q ≠ sprintfU p.toNat := by
  by_cases hlt : q.toNat < 2147483648
  · rw [sprintfD_of_lt hlt]
    exact fun he => hq (UInt32.toNat_inj.mp (sprintfU_inj he))
  · exact sprintfD_ne_sprintfU hlt _

end Tables

theorem count_set_true {l : List Bool} {i : Nat} (h : l[i]? = some false) :
    (l.set i true).count true = l.count true + 1 := by
  obtain ⟨hi, hget⟩ := List.getElem?_eq_some_iff.mp h
  rw [List.count_set hi, hget]
  simp

theorem count_set_false {l : List Bool} {i : Nat} (h : l[i]? = some true) :
    (l.set i false).count true + 1 = l.count true := by
  obtain ⟨hi, hget⟩ := List.getElem?_eq_some_iff.mp h
  have hpos : 0 < l.count true := List.count_pos_iff.mpr (hget ▸ List.getElem_mem hi)
  rw [List.count_set hi, hget]
  simp
  omega

/-- What a fetch does that evicts no frame. -/
structure FetchedTo (p : PageId) (bpm : BufferPoolManager) (f : FrameId) (page : BpmPage)
    (bpm' : BufferPoolManager) : Prop where
  pages : bpm'.pages = bpm.pages.set f page
  bound : f < bpm.pages.length
  id : page.id = p
  content : contentOf bpm p = some page.data
  frame : frameOf bpm' p = some f
  disk : bpm'.diskManager = bpm.diskManager
  others : ∀ q, q ≠ p → found bpm'.pageTable (sprintfD q) = found bpm.pageTable (sprintfD q)
  free : (frameOf bpm p = some f ∧ bpm'.freeList = bpm.freeList) ∨
    (¬ Present bpm p ∧ bpm.freeList[f]? = some true ∧ bpm'.freeList = bpm.freeList.set f false)

/-- There is a free frame for each of the pages that is not resident. -/
def FramesFor (bpm : BufferPoolManager) (ps : List PageId) : Prop :=
  {p ∈ ps.toFinset | found bpm.pageTable (sprintfD p) = .ok none}.card ≤ freeFrames bpm

instance (bpm : BufferPoolManager) (ps : List PageId) : Decidable (FramesFor bpm ps) :=
  inferInstanceAs (Decidable (_ ≤ _))

/-- Every pool with an exact directory is of this kind. -/
theorem DirInv.ownFrames {bpm : BufferPoolManager} {poolSize : Nat} {rs : List (Nat × FrameId)}
    (h : DirInv poolSize bpm.pages bpm.pageTable bpm.freeList rs) : OwnFrames bpm := by
  refine ⟨fun p q f hp hq => ?_, fun p f hp => ?_, fun p f page hp hpage => ?_⟩
  · have hp' := h.frameIn_iff.mp hp
    have hq' := h.frameIn_iff.mp hq
    have := List.inj_on_of_nodup_map h.frames hp' hq' rfl
    exact UInt32.toNat_inj.mp (Prod.mk.inj this).1
  · have hp' := h.frameIn_iff.mp hp
    exact (h.free f (h.below hp')).mpr (List.mem_map.mpr ⟨_, hp', rfl⟩)
  · obtain ⟨page', hpage', hid⟩ := h.ids _ (h.frameIn_iff.mp hp)
    rw [hpage] at hpage'
    cases hpage'
    exact UInt32.toNat_inj.mp hid

section Calls

variable {b bpm bpm' : BufferPoolManager} {ps : List PageId} {p : PageId} {f : FrameId}

theorem FramesFor.room (h : FramesFor bpm ps) (hp : p ∈ ps) (hnot : ¬ Present bpm p) : 1 ≤ freeFrames bpm := by
  refine le_trans (Finset.card_pos.mpr ⟨p, ?_⟩) h
  rw [Finset.mem_filter, List.mem_toFinset]
  exact ⟨hp, not_not.mp hnot⟩

/-- The frame that a fetch returns holds the page, also if it was evicted. -/
theorem Fetched.id_eq (hfetched : Fetched p bpm f bpm') (h : OwnFrames bpm) {page : BpmPage}
    (hpage : bpm'.pages[f]? = some page) : page.id = p := by
  cases hfetched with
  | @hit page' hframe hpage' =>
    have hf := (List.getElem?_eq_some_iff.mp hpage').1
    simp only [List.getElem?_set_self hf, Option.some.injEq] at hpage
    rw [← hpage]
    exact h.ids p f page' hframe hpage'
  | @miss page' data bpm₁ hframe habsent hpaged hpage' hdata =>
    have hf := (List.getElem?_eq_some_iff.mp hpage').1
    simp only [List.getElem?_set_self hf, Option.some.injEq] at hpage
    rw [← hpage]
    cases hpaged with
    | found hframe' => cases hframe.symm.trans hframe'
    | added _ htaken hfid hlen htable hreplacer =>
      simp only [List.getElem?_set_self hfid, Option.some.injEq] at hpage'
      rw [← hpage']
      rfl

theorem Fetched.fetchedTo (hfetched : Fetched p bpm f bpm') (h : PinsTaken b ps bpm)
    (hroom : ¬ Present bpm p → 1 ≤ freeFrames bpm) : ∃ page, FetchedTo p bpm f page bpm' := by
  cases hfetched with
  | @hit page hframe hpage =>
    refine ⟨page.pin, ⟨rfl, (List.getElem?_eq_some_iff.mp hpage).1, h.ids p f page hframe hpage, ?_, hframe, rfl,
      fun q _ => rfl, .inl ⟨hframe, rfl⟩⟩⟩
    rw [contentOf, hframe]
    simp only [hpage]
    rfl
  | @miss page data bpm₁ hframe habsent hpaged hpage hdata =>
    have hnot : ¬ Present bpm p := fun hpresent => hpresent habsent
    obtain ⟨g, hidx, htrue⟩ := findIdx_of_mem (List.count_pos_iff.mp (hroom hnot))
    have hcontent := hpaged.frameOf_eq
    cases hpaged with
    | found hframe' => cases hframe.symm.trans hframe'
    | added _ htaken hfid hlen htable hreplacer =>
      cases htaken with
      | free hfree =>
        rw [hidx] at hfree
        cases hfree
        rw [List.getElem?_set_self hfid] at hpage
        cases hpage
        refine ⟨_, ⟨List.set_set .., hfid, rfl, ?_, hcontent, rfl, fun q hq => ?_, .inr ⟨hnot, htrue, rfl⟩⟩⟩
        · rw [contentOf, hframe]
          exact hdata
        · exact found_hashInsert_ne htable (sprintfD_ne hq)
      | clean hfree hevict hpage' hdirty => rw [hidx] at hfree; cases hfree
      | dirty hfree hevict hpage' hdirty hflush => rw [hidx] at hfree; cases hfree

namespace FetchedTo

variable {page : BpmPage}

theorem frameOf_ne (h : FetchedTo p bpm f page bpm') {q : PageId} (hq : q ≠ p) :
    frameOf bpm' q = frameOf bpm q := frameIn_congr (h.others q hq)

/-- The frame of the page is the frame of no other one. -/
theorem frame_ne (h : FetchedTo p bpm f page bpm') (htaken : PinsTaken b ps bpm) {q : PageId} {g : FrameId}
    (hq : q ≠ p) (hg : frameOf bpm q = some g) : f ≠ g := by
  rintro rfl
  rcases h.free with ⟨hframe, -⟩ | ⟨-, htrue, -⟩
  · exact hq (htaken.inj q p f hg hframe)
  · rw [htaken.used q f hg] at htrue
    cases htrue

theorem pinsTaken (h : FetchedTo p bpm f page bpm') (htaken : PinsTaken b ps bpm) : PinsTaken b (p :: ps) bpm' := by
  refine ⟨⟨fun q r g hq hr => ?_, fun q g hq => ?_, fun q g page' hq hpage' => ?_⟩, fun q c hq hpins => ?_⟩
  · by_cases hqp : q = p
    · by_cases hrp : r = p
      · rw [hqp, hrp]
      · rw [hqp, h.frame] at hq
        cases hq
        rw [h.frameOf_ne hrp] at hr
        exact absurd rfl (h.frame_ne htaken hrp hr)
    · rw [h.frameOf_ne hqp] at hq
      by_cases hrp : r = p
      · rw [hrp, h.frame] at hr
        cases hr
        exact absurd rfl (h.frame_ne htaken hqp hq)
      · rw [h.frameOf_ne hrp] at hr
        exact htaken.inj q r g hq hr
  · by_cases hqp : q = p
    · rw [hqp, h.frame] at hq
      cases hq
      rcases h.free with ⟨hframe, hfree⟩ | ⟨-, htrue, hfree⟩
      · rw [hfree]
        exact htaken.used p f hframe
      · rw [hfree, List.getElem?_set_self (List.getElem?_eq_some_iff.mp htrue).1]
    · rw [h.frameOf_ne hqp] at hq
      have hused := htaken.used q g hq
      rcases h.free with ⟨-, hfree⟩ | ⟨-, -, hfree⟩
      · rwa [hfree]
      · rwa [hfree, List.getElem?_set_ne (h.frame_ne htaken hqp hq)]
  · rw [h.pages] at hpage'
    by_cases hqp : q = p
    · rw [hqp, h.frame] at hq
      cases hq
      rw [List.getElem?_set_self h.bound] at hpage'
      cases hpage'
      rw [h.id, hqp]
    · rw [h.frameOf_ne hqp] at hq
      rw [List.getElem?_set_ne (h.frame_ne htaken hqp hq)] at hpage'
      exact htaken.ids q g page' hq hpage'
  · obtain ⟨hqp, hq⟩ := List.ne_and_not_mem_of_not_mem_cons hq
    refine htaken.pins q c hq ?_
    rw [← hpins, pinsOf, pinsOf, h.frameOf_ne hqp]
    cases hg : frameOf bpm q with
    | none => rfl
    | some g =>
      simp only [Option.bind_some]
      rw [h.pages, List.getElem?_set_ne (h.frame_ne htaken hqp hg)]

theorem present (h : FetchedTo p bpm f page bpm') {q : PageId} (hq : Present bpm q) : Present bpm' q := by
  by_cases hqp : q = p
  · subst hqp
    exact present_of_frame h.frame
  · rwa [Present, h.others q hqp]

theorem freeFrames_le (h : FetchedTo p bpm f page bpm') : freeFrames bpm ≤ freeFrames bpm' + 1 := by
  rcases h.free with ⟨-, hfree⟩ | ⟨-, htrue, hfree⟩
  · rw [freeFrames, freeFrames, hfree]
    omega
  · have := count_set_false htrue
    rw [freeFrames, freeFrames, hfree]
    omega

theorem freeFrames_of_present (h : FetchedTo p bpm f page bpm') (hp : Present bpm p) :
    freeFrames bpm' = freeFrames bpm := by
  rcases h.free with ⟨-, hfree⟩ | ⟨hnot, -, -⟩
  · rw [freeFrames, freeFrames, hfree]
  · exact absurd hp hnot

theorem framesFor (h : FetchedTo p bpm f page bpm') (hframes : FramesFor bpm ps) (hp : p ∈ ps) :
    FramesFor bpm' ps := by
  -- nothing is absent after the fetch that was not absent before it
  have habsent : ∀ q, found bpm'.pageTable (sprintfD q) = .ok none → q ≠ p ∧ ¬ Present bpm q := by
    intro q hq
    have hqp : q ≠ p := by
      rintro rfl
      exact present_of_frame h.frame hq
    refine ⟨hqp, fun hpresent => hpresent ?_⟩
    rw [← h.others q hqp, hq]
  rcases h.free with ⟨-, hfree⟩ | ⟨hnot, htrue, hfree⟩
  · rw [FramesFor, freeFrames, hfree]
    refine le_trans (Finset.card_le_card fun q hq => ?_) hframes
    rw [Finset.mem_filter] at hq ⊢
    exact ⟨hq.1, not_not.mp (habsent q hq.2).2⟩
  · have hcount := count_set_false htrue
    have hsub : {q ∈ ps.toFinset | found bpm'.pageTable (sprintfD q) = .ok none} ⊆
        {q ∈ ps.toFinset | found bpm.pageTable (sprintfD q) = .ok none}.erase p := by
      intro q hq
      rw [Finset.mem_filter] at hq
      rw [Finset.mem_erase, Finset.mem_filter]
      exact ⟨(habsent q hq.2).1, hq.1, not_not.mp (habsent q hq.2).2⟩
    have hmem : p ∈ {q ∈ ps.toFinset | found bpm.pageTable (sprintfD q) = .ok none} := by
      rw [Finset.mem_filter, List.mem_toFinset]
      exact ⟨hp, not_not.mp hnot⟩
    have hcard := Finset.card_le_card hsub
    rw [Finset.card_erase_of_mem hmem] at hcard
    rw [FramesFor, freeFrames] at hframes ⊢
    rw [hfree]
    omega

end FetchedTo

/-- A page that is flushed is not resident after it. -/
theorem Flushed.pinsTaken {r : Bool} (hflushed : Flushed p bpm r bpm') (htaken : PinsTaken b ps bpm)
    (hframe : frameOf bpm p = some f) :
    PinsTaken b (ps.filter (· ≠ p)) bpm' ∧ (∀ q, q ≠ p → Present bpm q → Present bpm' q) ∧
      freeFrames bpm' = freeFrames bpm + 1 := by
  cases hflushed with
  | absent hnone => cases hnone.symm.trans hframe
  | @written g page removed ht r hframe' hpage htable hremoved hreplacer =>
    obtain rfl : g = f := Option.some.inj (hframe'.symm.trans hframe)
    have hused := htaken.used p g hframe
    obtain ⟨hself, hother⟩ := found_hashRemove htable hremoved
    have hgone : frameIn ht p = none := by
      rcases hself with habsent | ⟨e, he⟩
      · exact frameIn_of_absent habsent
      · exact frameIn_of_error he
    -- what is found is what was found before
    have hkept : ∀ {q h}, frameIn ht q = some h → q ≠ p ∧ frameOf bpm q = some h := by
      intro q h hq
      have hqp : q ≠ p := by
        rintro rfl
        rw [hgone] at hq
        cases hq
      refine ⟨hqp, ?_⟩
      have hne : sprintfD q ≠ sprintfD p := fun he => hqp (sprintfD_inj he)
      rcases hother (sprintfD q) hne with hsame | ⟨e, he⟩
      · rwa [frameIn_congr hsame] at hq
      · rw [frameIn_of_error he] at hq
        cases hq
    refine ⟨⟨⟨fun q q' h hq hq' => ?_, fun q h hq => ?_, fun q h page' hq hpage' => ?_⟩, fun q c hq hpins => ?_⟩,
      fun q hqp hpresent => ?_, count_set_true hused⟩
    · exact htaken.inj q q' h (hkept hq).2 (hkept hq').2
    · obtain ⟨hqp, hq⟩ := hkept hq
      have hne : g ≠ h := fun he => hqp (htaken.inj q p g (he ▸ hq) hframe)
      simp only [List.getElem?_set_ne hne]
      exact htaken.used q h hq
    · exact htaken.ids q h page' (hkept hq).2 hpage'
    · rw [pinsOf] at hpins
      obtain ⟨h, hh, hpage'⟩ := Option.bind_eq_some_iff.mp hpins
      obtain ⟨hqp, hold⟩ := hkept hh
      refine htaken.pins q c (fun hmem => hq (List.mem_filter.mpr ⟨hmem, by simpa using hqp⟩)) ?_
      rw [pinsOf, hold]
      exact hpage'
    · rcases hother (sprintfD q) (fun he => hqp (sprintfD_inj he)) with hsame | ⟨e, he⟩
      · rw [Present]
        simp only [hsame]
        exact hpresent
      · rw [Present]
        simp only [he]
        simp

end Calls

end SomeDB
