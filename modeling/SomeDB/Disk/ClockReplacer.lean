import Mathlib.Data.List.Perm.Subperm
import SomeDB.Utils.CircularList
import SomeDB.Utils.Hash

/-!
# The clock replacer (`clock_replacer.c`)

The replacer has a list of the frames it may give away, a table with their reference bits, and a hand
that points to a node of the list. `clock_replacer_unpin` makes one string for a frame, which is both the
value of the list node and the key in the table: the node owns it, and when the node is freed the key is.
`hash_remove` frees keys too, and the string of a node that is still in the list is dangling then.

`Tracks r fs`: the replacer holds the frames `fs`, each once, and everything fits together. Not every call
keeps it so; `ClockSafe` says when a call does.
-/

namespace SomeDB

open Lib

/-- What `frame_table` has for a frame: the reference bit, and the list node that owns the key. -/
structure FrameInfo where
  ref : Bool
  owner : Nat
  deriving DecidableEq

/-- `ClockReplacer`. `dangling`: the nodes whose strings `hash_remove` has freed. -/
structure ClockReplacer where
  numPages : Nat
  frames : CircularList
  frameTable : HashTable FrameInfo
  hand : Option Nat
  dangling : List Nat

abbrev ClockM (α : Type) := Prog Fault ClockReplacer α

/-- `clock_replacer_init`. -/
def clockReplacerInit (capacity : Nat) : ClockReplacer where
  numPages := capacity
  frames := circularListInit capacity
  frameTable := initHash FrameInfo (UInt32.ofNat capacity)
  hand := none
  dangling := []

/-- `frame_to_str`: `snprintf` stores at most 10 characters. -/
def frameToStr (frame : UInt32) : CString := (sprintfD frame).take 10

def onFrames {α : Type} (p : ListM α) : ClockM α :=
  Prog.zoom (·.frames) (fun r cl => { r with frames := cl }) p

def onFrameTable {α : Type} (p : HashM FrameInfo α) : ClockM α :=
  Prog.zoom (·.frameTable) (fun r ht => { r with frameTable := ht }) p

/-- The key that the list node `id` owns is freed. -/
def freeKey (id : Nat) (ht : HashTable FrameInfo) : HashTable FrameInfo :=
  let free (el : HashEl FrameInfo) : HashEl FrameInfo := { el with freed := el.freed || el.data.owner = id }
  { ht with arr := ht.arr.map fun b => ⟨b.head.map free, b.next.map free⟩ }

/-- The bucket of a key. -/
def bucketAt (key : CString) (ht : HashTable FrameInfo) : Option (Bucket FrameInfo) :=
  match hash key ht with
  | .ok idx => ht.arr[idx]?
  | .error _ => none

/-- The element whose key `hash_remove` frees: the one that it copies into the bucket, or the linked cell. -/
def freedEl (key : CString) (ht : HashTable FrameInfo) : Removed → Option (HashEl FrameInfo)
  | .absent => none
  | .head => (bucketAt key ht).bind fun b => b.next.head?
  | .linked => (bucketAt key ht).bind fun b => b.next.find? fun el => el.key = key

/-- The key of the element is freed, which is the string of a list node too. A key that was freed with its node
must not be freed again. -/
def freeString : Option (HashEl FrameInfo) → ClockM Unit
  | none => pure ()
  | some el =>
    if el.freed then Prog.fault .freed
    else Prog.modify fun r => { r with dangling := el.data.owner :: r.dangling }

/-- `hash_remove` on the frame table. -/
def removeKey (key : CString) : ClockM Unit := do
  let ht := (← Prog.get).frameTable
  let removed ← onFrameTable (hashRemove true key)
  freeString (freedEl key ht removed)

/-- `circular_list_remove` on the frames. It compares the string of the first node, and frees that of the node
it removes. -/
def removeFrame (value : CString) : ClockM Unit := do
  let r ← Prog.get
  if r.frames.nodes.head?.any fun head => head.id ∈ r.dangling then Prog.fault .freed
  else
    match ← onFrames (circularListRemove value) with
    | none => pure ()
    | some id =>
      if id ∈ r.dangling then Prog.fault .freed
      else Prog.modify fun r => { r with frameTable := freeKey id r.frameTable }

/-- The frame of a string, as `evict` reads it: an `int` that becomes a `frame_id_t`. -/
def frameIdOf (frame : CString) : Nat := (UInt32.ofInt (atoi frame)).toNat

/-- The end of `evict` for a frame without its reference bit, the node of which is `id`. The removals get the
string of the node. -/
def takeFrameOut (id : Nat) (frame : CString) : ClockM Nat := do
  removeKey frame
  if id ∈ (← Prog.get).dangling then Prog.fault .freed
  else do
    removeFrame frame
    pure (frameIdOf frame)

/-- The loop of `evict`, which has `n` rounds left. -/
def evictLoop : Nat → ClockM (Option Nat)
  | 0 => pure none
  | n + 1 => do
    let r ← Prog.get
    match r.hand with
    | none => Prog.fault .nullPointer
    | some id =>
      match r.frames.nodes.find? fun x => x.id = id with
      | none => Prog.fault .freed
      | some node =>
        if id ∈ r.dangling then Prog.fault .freed
        else do
          let info ← Prog.lift (deref (← onFrameTable (hashFind true node.value)))
          if info.ref then do
            onFrameTable (hashInsert true node.value ⟨false, id⟩)
            let next ← onFrames (circularListNext id)
            Prog.modify fun r => { r with hand := next }
            evictLoop n
          else do
            let frame ← takeFrameOut id node.value
            pure (some frame)

/-- `evict`; `none` is the `UINT32_MAX` of a sweep that finds no frame. -/
def evict : ClockM (Option Nat) := do
  let r ← Prog.get
  if r.frames.size = 0 then pure none
  else do
    if r.hand = none then Prog.modify fun r => { r with hand := r.frames.nodes.head?.map (·.id) }
    evictLoop r.frames.size

/-- `clock_replacer_unpin`, for the frames whose string is their number (`frameToStr_of_lt`). -/
def clockReplacerUnpin (frame : Nat) : ClockM Unit := do
  match ← onFrames (circularListInsert (sprintfU frame)) with
  | none => pure ()
  | some id => onFrameTable (hashInsert true (sprintfU frame) ⟨true, id⟩)

/-- `clock_replacer_pin`. The pointer `ok` is never null, so the list is asked to remove the frame whether
the table had it or not. -/
def clockReplacerPin (frame : Nat) : ClockM Unit := do
  removeKey (sprintfU frame)
  removeFrame (sprintfU frame)

/-- A call on the replacer. -/
inductive ClockOp where
  | unpin (frame : Nat)
  | pin (frame : Nat)
  | evict
  deriving DecidableEq

def clockOp : ClockOp → ClockM (Option Nat)
  | .unpin frame => do
    clockReplacerUnpin frame
    pure none
  | .pin frame => do
    clockReplacerPin frame
    pure none
  | .evict => evict

/-! ## The frames of a replacer -/

/-- A frame of the list: its node, its number and its reference bit. -/
structure Tracked where
  id : Nat
  frame : Nat
  ref : Bool
  deriving DecidableEq

namespace Tracked

def node (x : Tracked) : ListNode := ⟨x.id, sprintfU x.frame⟩

def info (x : Tracked) : FrameInfo := ⟨x.ref, x.id⟩

/-- The frame with its bit cleared. -/
def clear (x : Tracked) : Tracked := { x with ref := false }

/-- What the table has for a key. -/
def lookup (fs : List Tracked) : CString → Option FrameInfo := numbered (fs.map fun x => (x.frame, x.info))

end Tracked

/-- The replacer holds the frames `fs`. -/
structure Tracks (cap : Nat) (r : ClockReplacer) (fs : List Tracked) : Prop where
  nodes : r.frames.nodes = fs.map Tracked.node
  size : r.frames.size = fs.length
  capacity : r.frames.capacity = cap
  below : ∀ x ∈ fs, x.frame < cap
  nodup : (fs.map (·.frame)).Nodup
  ids : (fs.map (·.id)).Nodup
  fresh : ∀ x ∈ fs, x.id < r.frames.nextId
  table : r.frameTable.Refines cap (Tracked.lookup fs)
  hand : ∀ id, r.hand = some id → id ∈ fs.map (·.id)
  live : r.dangling = []

theorem atoi_frame {f cap : Nat} (hf : f < cap) (hcap : cap ≤ 65535) : 0 ≤ atoi (sprintfU f) := by
  rw [atoi_sprintfU (by omega)]
  omega

theorem frameIdOf_sprintfU {f : Nat} (hf : f < 2147483648) : frameIdOf (sprintfU f) = f := by
  unfold frameIdOf
  rw [atoi_sprintfU hf, UInt32.ofInt, UInt32.toNat_ofNat']
  omega

theorem frameToStr_of_lt {frame : UInt32} (h : frame.toNat < 2147483648) :
    frameToStr frame = sprintfU frame.toNat := by
  unfold frameToStr
  rw [sprintfD_of_lt h]
  exact List.take_of_length_le ((Nat.length_toDigits_le_iff (by decide) (by decide)).mpr (by omega))

/-- Frames below the capacity have different buckets. -/
theorem hash_frame {ht : HashTable FrameInfo} {cap : Nat} {m : CString → Option FrameInfo}
    (h : ht.Refines cap m) {f : Nat} (hf : f < cap) (hcap : cap ≤ 65535) : hash (sprintfU f) ht = .ok f := by
  have hsize : ¬ ht.size = 0 := by
    intro h0
    have := h.size
    rw [h0] at this
    have hz : (0 : UInt16).toNat = 0 := rfl
    omega
  rw [hash, if_neg hsize, h.size, atoi_sprintfU (by omega), Int.tmod_eq_of_lt (by omega) (by omega)]
  congr 1
  omega

namespace Tracked

variable {fs : List Tracked} {x : Tracked} {f : Nat}

theorem lookup_cons (x : Tracked) (fs : List Tracked) :
    lookup (x :: fs) = updateMap (lookup fs) (sprintfU x.frame) (some x.info) := by
  rw [lookup, List.map_cons, numbered_cons]
  rfl

theorem numbers (fs : List Tracked) : (fs.map fun x => (x.frame, x.info)).map (·.1) = fs.map (·.frame) := by
  rw [List.map_map]
  rfl

theorem mem_of_lookup {k : CString} {d : FrameInfo} (h : lookup fs k = some d) :
    ∃ y ∈ fs, k = sprintfU y.frame ∧ y.info = d := by
  obtain ⟨n, hn, rfl⟩ := mem_of_numbered h
  obtain ⟨y, hy, he⟩ := List.mem_map.mp hn
  cases he
  exact ⟨y, hy, rfl, rfl⟩

theorem lookup_of_mem (h : (fs.map (·.frame)).Nodup) (hx : x ∈ fs) :
    lookup fs (sprintfU x.frame) = some x.info := by
  rw [← numbers] at h
  exact numbered_of_mem (x := (x.frame, x.info)) h (List.mem_map.mpr ⟨x, hx, rfl⟩)

end Tracked

/-- A key that no element has is freed: nothing changes. -/
theorem freeKey_eq {ht : HashTable FrameInfo} {n id : Nat} {m : CString → Option FrameInfo}
    (h : ht.Refines n m) (hid : ∀ k d, m k = some d → d.owner ≠ id) : freeKey id ht = ht := by
  have hel : ∀ (i : Nat) (b : Bucket FrameInfo), ht.arr[i]? = some b → ∀ el ∈ b.chain,
      ({ el with freed := el.freed || el.data.owner = id } : HashEl FrameInfo) = el := by
    intro i b hb el hel
    have hfind := h.find el.key i b (h.index i b hb el hel) hb
    have hsome : (b.chain.find? fun x => x.key = el.key) = some el := by
      refine List.find?_eq_some_iff_append.mpr ?_
      obtain ⟨as, bs, hchain⟩ := List.append_of_mem hel
      refine ⟨by simp, as, bs, hchain, fun a ha => ?_⟩
      have hnodup := h.nodup i b hb
      rw [hchain, List.map_append, List.map_cons, List.nodup_append] at hnodup
      simpa using hnodup.2.2 a.key (List.mem_map_of_mem ha) el.key (List.mem_cons_self ..)
    rw [hsome] at hfind
    obtain ⟨d, hd, hdel⟩ := Option.map_eq_some_iff.mp hfind.symm
    have howner := hid el.key d hd
    cases el with
    | mk key data freed =>
      cases hdel
      simp [howner]
  have hbucket : ∀ b ∈ ht.arr, (⟨b.head.map fun el => { el with freed := el.freed || el.data.owner = id },
      b.next.map fun el => { el with freed := el.freed || el.data.owner = id }⟩ : Bucket FrameInfo) = b := by
    intro b hb
    obtain ⟨i, hi, rfl⟩ := List.mem_iff_getElem.mp hb
    have hb' := hel i _ (List.getElem?_eq_getElem hi)
    generalize ht.arr[i] = b at hb'
    obtain ⟨head, next⟩ := b
    congr 1
    · cases head with
      | none => rfl
      | some el => simpa using hb' el (by simp [Bucket.chain])
    · refine (List.map_congr_left fun el hel' => hb' el ?_).trans (List.map_id' next)
      simp [Bucket.chain, hel']
  cases ht with
  | mk arr size =>
    simp only [freeKey]
    congr 1
    conv_rhs => rw [← List.map_id arr]
    exact List.map_congr_left fun b hb => hbucket b hb

/-! ## The calls -/

theorem onFrames_ok {α : Type} {p : ListM α} {a : α} {r : ClockReplacer} {cl : CircularList}
    (h : p r.frames = (.ok a, cl)) : onFrames p r = (.ok a, { r with frames := cl }) := by
  rw [onFrames, Prog.zoom_ok h]

theorem onFrameTable_ok {α : Type} {p : HashM FrameInfo α} {a : α} {r : ClockReplacer}
    {ht : HashTable FrameInfo} (h : p r.frameTable = (.ok a, ht)) :
    onFrameTable p r = (.ok a, { r with frameTable := ht }) := by
  rw [onFrameTable, Prog.zoom_ok h]

namespace Tracks

variable {cap : Nat} {r : ClockReplacer} {fs : List Tracked} {x y : Tracked} {f : Nat}

theorem init (cap : Nat) (hpos : 0 < cap) (hcap : cap ≤ 65535) : Tracks cap (clockReplacerInit cap) [] := by
  have hnat : (UInt32.ofNat cap).toNat = cap := by
    rw [UInt32.toNat_ofNat', Nat.mod_eq_of_lt (by omega)]
  have htable := HashTable.Refines.init (α := FrameInfo) (UInt32.ofNat cap) (by omega) (by omega)
  rw [hnat] at htable
  exact ⟨rfl, rfl, rfl, by simp, by simp, by simp, by simp, htable,
    fun _ hid => (Option.some_ne_none _ hid.symm).elim, rfl⟩

/-- A frame that is not there is put in front. -/
theorem unpin_new (h : Tracks cap r fs) (hcap : cap ≤ 65535) (hf : f < cap)
    (hnew : f ∉ fs.map (·.frame)) (hroom : fs.length < cap) :
    ∃ r' id, clockReplacerUnpin f r = (.ok (), r') ∧ Tracks cap r' (⟨id, f, true⟩ :: fs) ∧
      r'.hand = r.hand := by
  have hinsert : circularListInsert (sprintfU f) r.frames = (.ok (some r.frames.nextId), { r.frames with
      size := r.frames.size + 1
      nodes := ⟨r.frames.nextId, sprintfU f⟩ :: r.frames.nodes
      nextId := r.frames.nextId + 1 }) := by
    rw [circularListInsert, if_neg (by rw [h.size, h.capacity]; omega)]
  obtain ⟨ht, hhash, htable⟩ := h.table.hashInsert_ok (atoi_frame hf hcap) true ⟨true, r.frames.nextId⟩
  rw [clockReplacerUnpin, Prog.bind_ok (onFrames_ok hinsert)]
  simp only
  rw [onFrameTable_ok (by exact hhash)]
  refine ⟨_, r.frames.nextId, rfl, ⟨?_, ?_, h.capacity, ?_, ?_, ?_, ?_, ?_, ?_, h.live⟩, rfl⟩
  · simp [h.nodes, Tracked.node]
  · simp [h.size]
  · intro x hx
    rcases List.mem_cons.mp hx with rfl | hx
    · exact hf
    · exact h.below x hx
  · exact List.nodup_cons.mpr ⟨hnew, h.nodup⟩
  · refine List.nodup_cons.mpr ⟨fun hmem => ?_, h.ids⟩
    obtain ⟨x, hx, he⟩ := List.mem_map.mp hmem
    have := h.fresh x hx
    simp only at he
    omega
  · intro x hx
    rcases List.mem_cons.mp hx with rfl | hx
    · exact Nat.lt_succ_self _
    · exact Nat.lt_succ_of_lt (h.fresh x hx)
  · rw [Tracked.lookup_cons]
    exact htable
  · intro id hid
    exact List.mem_cons_of_mem _ (h.hand id hid)

/-- A full list takes no frame. -/
theorem unpin_full (h : Tracks cap r fs) (hfull : fs.length = cap) : clockReplacerUnpin f r = (.ok (), r) := by
  have hinsert : circularListInsert (sprintfU f) r.frames = (.ok none, r.frames) := by
    rw [circularListInsert, if_pos (by rw [h.size, h.capacity]; exact hfull)]
  rw [clockReplacerUnpin, Prog.bind_ok (onFrames_ok hinsert)]
  rfl

/-- The table without a frame. No key is freed, as the frame had its bucket for itself. -/
theorem removeKey (h : Tracks cap r fs) (hcap : cap ≤ 65535) (hf : f < cap) :
    ∃ ht, SomeDB.removeKey (sprintfU f) r = (.ok (), { r with frameTable := ht }) ∧
      ht.Refines cap (updateMap (Tracked.lookup fs) (sprintfU f) none) := by
  have halone : ∀ k, (Tracked.lookup fs k).isSome = true →
      hash k r.frameTable = hash (sprintfU f) r.frameTable → k = sprintfU f := by
    intro k hk heq
    obtain ⟨d, hd⟩ := Option.isSome_iff_exists.mp hk
    obtain ⟨y, hy, rfl, -⟩ := Tracked.mem_of_lookup hd
    rw [hash_frame h.table (h.below y hy) hcap, hash_frame h.table hf hcap] at heq
    rw [Except.ok.inj heq]
  obtain ⟨o, ht, hrun, href, -⟩ := h.table.hashRemove_ok (atoi_frame hf hcap) true fun _ => halone
  obtain ⟨i, b, hi, hb, -⟩ := h.table.bucketOf_ok (atoi_frame hf hcap)
  have hlen := h.table.chain_length_le_one hi hb halone
  have hnext : b.next = [] := by
    obtain ⟨head, next⟩ := b
    cases head with
    | none => exact h.table.ok i _ hb rfl
    | some el =>
      simp only [Bucket.chain, Option.toList_some, List.singleton_append, List.length_cons] at hlen
      show next = []
      exact List.length_eq_zero_iff.mp (by omega)
  have hbucket : bucketAt (sprintfU f) r.frameTable = some b := by
    unfold bucketAt
    rw [hi]
    exact hb
  have hfreed : freedEl (sprintfU f) r.frameTable o = none := by
    unfold freedEl
    cases o with
    | absent => rfl
    | head => simp only [hbucket, Option.bind_some, hnext, List.head?_nil]
    | linked => simp only [hbucket, Option.bind_some, hnext, List.find?_nil]
  refine ⟨ht, ?_, href⟩
  unfold SomeDB.removeKey
  rw [Prog.get_bind, Prog.bind_ok (onFrameTable_ok hrun), hfreed]
  rfl

/-- A frame is taken out of the table and of the list. -/
theorem drop {fs₁ fs₂ : List Tracked} (h : Tracks cap r (fs₁ ++ x :: fs₂)) (hcap : cap ≤ 65535)
    (hremove : circularListRemove (sprintfU x.frame) r.frames = (.ok (some x.id), { r.frames with
      nodes := (fs₁ ++ fs₂).map Tracked.node, size := r.frames.size - 1 }))
    (hhand : r.hand ≠ some x.id) :
    ∃ ht r', SomeDB.removeKey (sprintfU x.frame) r = (.ok (), { r with frameTable := ht }) ∧
      removeFrame (sprintfU x.frame) { r with frameTable := ht } = (.ok (), r') ∧
      Tracks cap r' (fs₁ ++ fs₂) ∧ r'.hand = r.hand := by
  have hmem : x ∈ fs₁ ++ x :: fs₂ := by simp
  have hsub : fs₁ ++ fs₂ ⊆ fs₁ ++ x :: fs₂ := ((List.sublist_cons_self ..).append_left fs₁).subset
  have hframes := h.nodup
  have hids := h.ids
  rw [List.map_append, List.map_cons] at hframes hids
  have hid : x.id ∉ (fs₁ ++ fs₂).map (·.id) := by
    rw [List.map_append]
    exact (List.nodup_middle.mp hids).notMem
  obtain ⟨ht, hhash, htable⟩ := h.removeKey hcap (h.below x hmem)
  have hlookup : updateMap (Tracked.lookup (fs₁ ++ x :: fs₂)) (sprintfU x.frame) none =
      Tracked.lookup (fs₁ ++ fs₂) := by
    have hnumbers := h.nodup
    rw [← Tracked.numbers, List.map_append, List.map_cons] at hnumbers
    rw [Tracked.lookup, Tracked.lookup, List.map_append, List.map_append, List.map_cons]
    exact numbered_remove hnumbers
  rw [hlookup] at htable
  have hfree : freeKey x.id ht = ht := freeKey_eq htable fun k d hd => by
    obtain ⟨y, hy, -, rfl⟩ := Tracked.mem_of_lookup hd
    intro he
    exact hid (List.mem_map.mpr ⟨y, hy, he⟩)
  refine ⟨ht, { r with frameTable := ht, frames := { r.frames with
    nodes := (fs₁ ++ fs₂).map Tracked.node, size := r.frames.size - 1 } }, hhash, ?_, ?_, rfl⟩
  · unfold removeFrame
    rw [Prog.get_bind]
    simp only [h.live, List.not_mem_nil, decide_false, Option.any_false, Bool.false_eq_true, if_false]
    rw [Prog.bind_ok (onFrames_ok (by exact hremove))]
    simp only [Prog.modify_apply, hfree]
  · refine ⟨rfl, ?_, h.capacity, fun y hy => h.below y (hsub hy), ?_, ?_, fun y hy => h.fresh y (hsub hy),
      htable, fun id hid' => ?_, h.live⟩
    · simp only [h.size, List.length_append, List.length_cons]
      omega
    · rw [List.map_append]
      exact (List.nodup_middle.mp hframes).of_cons
    · rw [List.map_append]
      exact (List.nodup_middle.mp hids).of_cons
    · have := h.hand id hid'
      rw [List.map_append, List.map_cons] at this
      rw [List.map_append]
      rcases List.mem_append.mp this with h₁ | h₁
      · exact List.mem_append_left _ h₁
      · rcases List.mem_cons.mp h₁ with rfl | h₁
        · exact absurd hid' hhand
        · exact List.mem_append_right _ h₁

/-- An empty list is left as it is. -/
theorem pin_empty (h : Tracks cap r []) (hcap : cap ≤ 65535) (hf : f < cap) :
    ∃ r', clockReplacerPin f r = (.ok (), r') ∧ Tracks cap r' [] := by
  obtain ⟨ht, hhash, htable⟩ := h.removeKey hcap hf
  have hlookup : updateMap (Tracked.lookup []) (sprintfU f) none = Tracked.lookup [] := by
    funext k
    rw [updateMap]
    split <;> rfl
  rw [hlookup] at htable
  have hremove : circularListRemove (sprintfU f) r.frames = (.ok none, r.frames) := by
    rw [circularListRemove, h.nodes]
    rfl
  refine ⟨{ r with frameTable := ht }, ?_, h.nodes, h.size, h.capacity, h.below, h.nodup, h.ids, h.fresh,
    htable, h.hand, h.live⟩
  rw [clockReplacerPin, Prog.bind_ok hhash]
  unfold removeFrame
  rw [Prog.get_bind]
  simp only [h.live, List.not_mem_nil, decide_false, Option.any_false, Bool.false_eq_true, if_false]
  rw [Prog.bind_ok (onFrames_ok (by exact hremove))]
  rfl

/-- The first frame of the list is removed. -/
theorem pin_first (h : Tracks cap r (x :: fs)) (hcap : cap ≤ 65535) (hhand : r.hand ≠ some x.id) :
    ∃ r', clockReplacerPin x.frame r = (.ok (), r') ∧ Tracks cap r' fs ∧ r'.hand = r.hand := by
  have hremove : circularListRemove (sprintfU x.frame) r.frames = (.ok (some x.id), { r.frames with
      nodes := ([] ++ fs).map Tracked.node, size := r.frames.size - 1 }) := by
    rw [circularListRemove, h.nodes]
    simp [Tracked.node]
  obtain ⟨ht, r', hhash, hrun, htracks, hsame⟩ := @drop cap r x [] fs h hcap hremove hhand
  refine ⟨r', ?_, htracks, hsame⟩
  rw [clockReplacerPin, Prog.bind_ok hhash, hrun]

/-- The second frame of the list is removed. -/
theorem pin_second (h : Tracks cap r (y :: x :: fs)) (hcap : cap ≤ 65535) (hhand : r.hand ≠ some x.id) :
    ∃ r', clockReplacerPin x.frame r = (.ok (), r') ∧ Tracks cap r' (y :: fs) ∧ r'.hand = r.hand := by
  have hne : ¬ sprintfU y.frame = sprintfU x.frame := by
    intro he
    have := h.nodup
    simp [sprintfU_inj he] at this
  have hremove : circularListRemove (sprintfU x.frame) r.frames = (.ok (some x.id), { r.frames with
      nodes := ([y] ++ fs).map Tracked.node, size := r.frames.size - 1 }) := by
    rw [circularListRemove, h.nodes]
    simp [Tracked.node, hne]
  obtain ⟨ht, r', hhash, hrun, htracks, hsame⟩ := @drop cap r x [y] fs h hcap hremove hhand
  refine ⟨r', ?_, htracks, hsame⟩
  rw [clockReplacerPin, Prog.bind_ok hhash, hrun]

/-! ## Eviction when all reference bits are set -/

variable {a b seg : List Tracked}

theorem node_ids (h : Tracks cap r fs) : (r.frames.nodes.map (·.id)).Nodup := by
  rw [h.nodes, List.map_map]
  exact h.ids

theorem nodes_split (h : Tracks cap r (a ++ x :: b)) :
    r.frames.nodes = a.map Tracked.node ++ x.node :: b.map Tracked.node := by
  rw [h.nodes, List.map_append, List.map_cons]

theorem nodes_find (h : Tracks cap r (a ++ x :: b)) :
    (r.frames.nodes.find? fun n => n.id = x.id) = some x.node := by
  have hids := h.node_ids
  rw [h.nodes_split] at hids ⊢
  exact find_of_split hids

/-- The node behind `x` in the circle. -/
theorem next (h : Tracks cap r (a ++ x :: b)) :
    circularListNext x.id r.frames = (.ok ((b ++ a ++ [x]).map (·.id)).head?, r.frames) := by
  have hnext := circularListNext_of_split h.nodes_split h.node_ids (by rw [h.size]; simp)
  have hback : b.map Tracked.node ++ a.map Tracked.node ++ [x.node] = (b ++ a ++ [x]).map Tracked.node := by
    simp only [List.map_append, List.map_cons, List.map_nil]
  rw [hback, List.head?_map, Option.map_map] at hnext
  rw [List.head?_map]
  exact hnext

/-- A reference bit is cleared. -/
theorem clear (h : Tracks cap r (a ++ x :: b)) {ht : HashTable FrameInfo}
    (hht : ht.Refines cap (updateMap (Tracked.lookup (a ++ x :: b)) (sprintfU x.frame)
      (some ⟨false, x.id⟩))) :
    Tracks cap { r with frameTable := ht } (a ++ x.clear :: b) := by
  have hframes := h.nodup
  rw [List.map_append, List.map_cons] at hframes
  have hlookup : updateMap (Tracked.lookup (a ++ x :: b)) (sprintfU x.frame) (some ⟨false, x.id⟩) =
      Tracked.lookup (a ++ x.clear :: b) := by
    have hnumbers := h.nodup
    rw [← Tracked.numbers, List.map_append, List.map_cons] at hnumbers
    rw [Tracked.lookup, Tracked.lookup, List.map_append, List.map_append, List.map_cons, List.map_cons]
    exact numbered_replace hnumbers ⟨false, x.id⟩
  rw [hlookup] at hht
  have hmem : ∀ {y : Tracked}, y ∈ a ++ x.clear :: b → ∃ z ∈ a ++ x :: b, z.frame = y.frame ∧ z.id = y.id := by
    intro y hy
    rcases List.mem_append.mp hy with hy | hy
    · exact ⟨y, by simp [hy], rfl, rfl⟩
    · rcases List.mem_cons.mp hy with rfl | hy
      · exact ⟨x, by simp, rfl, rfl⟩
      · exact ⟨y, by simp [hy], rfl, rfl⟩
  refine ⟨?_, ?_, h.capacity, fun y hy => ?_, ?_, ?_, fun y hy => ?_, hht, fun id hid => ?_, h.live⟩
  · rw [h.nodes, List.map_append, List.map_append, List.map_cons, List.map_cons]
    rfl
  · rw [h.size, List.length_append, List.length_append, List.length_cons, List.length_cons]
  · obtain ⟨z, hz, hframe, -⟩ := hmem hy
    exact hframe ▸ h.below z hz
  · rw [List.map_append, List.map_cons]
    exact hframes
  · have := h.ids
    rw [List.map_append, List.map_cons] at this ⊢
    exact this
  · obtain ⟨z, hz, -, hid⟩ := hmem hy
    exact hid ▸ h.fresh z hz
  · have := h.hand id hid
    rw [List.map_append, List.map_cons] at this ⊢
    exact this

/-- One round of `evict` over a frame with its bit set. -/
theorem evict_round (h : Tracks cap r (a ++ x :: b)) (hcap : cap ≤ 65535) (hhand : r.hand = some x.id)
    (href : x.ref = true) (n : Nat) :
    ∃ r', evictLoop (n + 1) r = evictLoop n r' ∧ Tracks cap r' (a ++ x.clear :: b) ∧
      r'.hand = ((b ++ a ++ [x]).map (·.id)).head? := by
  have hmem : x ∈ a ++ x :: b := by simp
  have hatoi := atoi_frame (h.below x hmem) hcap
  have hfind := h.table.hashFind_ok hatoi true
  rw [Tracked.lookup_of_mem h.nodup hmem] at hfind
  obtain ⟨ht, hinsert, htable⟩ := h.table.hashInsert_ok hatoi true ⟨false, x.id⟩
  have hclear := h.clear htable
  have hnext := hclear.next
  have hid : ∀ l : List Tracked, (l ++ [x.clear]).map (·.id) = (l ++ [x]).map (·.id) := by
    intro l
    rw [List.map_append, List.map_append]
    rfl
  rw [show x.clear.id = x.id from rfl, hid] at hnext
  refine ⟨{ r with frameTable := ht, hand := ((b ++ a ++ [x]).map (·.id)).head? }, ?_, ?_, rfl⟩
  · rw [evictLoop, Prog.get_bind]
    simp only [hhand, h.nodes_find]
    rw [if_neg (by rw [h.live]; exact List.not_mem_nil)]
    rw [show x.node.value = sprintfU x.frame from rfl, Prog.bind_ok (onFrameTable_ok hfind)]
    simp only [Option.map_some, deref, Bool.false_eq_true, if_false, Prog.lift_ok_bind, Tracked.info, href,
      if_true]
    rw [Prog.bind_ok (onFrameTable_ok (by exact hinsert)), Prog.bind_ok (onFrames_ok hnext),
      Prog.modify_bind]
  · refine ⟨hclear.nodes, hclear.size, hclear.capacity, hclear.below, hclear.nodup, hclear.ids,
      hclear.fresh, hclear.table, fun id hid' => ?_, hclear.live⟩
    have hsome : id ∈ (b ++ a ++ [x]).map (·.id) := List.mem_of_mem_head? hid'
    rw [← hid] at hsome
    simp only [List.map_append, List.map_cons, List.map_nil, List.mem_append, List.mem_cons,
      List.not_mem_nil, or_false] at hsome ⊢
    tauto

/-- The rounds of `evict` over a part of the list. -/
theorem evict_rounds (h : Tracks cap r (a ++ seg ++ b)) (hcap : cap ≤ 65535)
    (hhand : r.hand = ((seg ++ b ++ a).map (·.id)).head?) (href : ∀ x ∈ seg, x.ref = true) (n : Nat) :
    ∃ r', evictLoop (seg.length + n) r = evictLoop n r' ∧
      Tracks cap r' (a ++ seg.map Tracked.clear ++ b) ∧
      r'.hand = ((b ++ a ++ seg).map (·.id)).head? := by
  induction seg generalizing a r with
  | nil =>
    refine ⟨r, by rw [List.length_nil, Nat.zero_add], h, ?_⟩
    rw [hhand, List.nil_append, List.append_nil]
  | cons x seg ih =>
    have h' : Tracks cap r (a ++ x :: (seg ++ b)) := by simpa using h
    obtain ⟨r₁, hrun₁, htracks₁, hhand₁⟩ := h'.evict_round hcap (by simpa using hhand)
      (href x (List.mem_cons_self ..)) (seg.length + n)
    obtain ⟨r₂, hrun₂, htracks₂, hhand₂⟩ := ih (a := a ++ [x.clear]) (r := r₁) (by simpa using htracks₁)
      (by rw [hhand₁]; simp [Tracked.clear]) (fun y hy => href y (List.mem_cons_of_mem _ hy))
    refine ⟨r₂, ?_, by simpa using htracks₂, by rw [hhand₂]; simp [Tracked.clear]⟩
    rw [List.length_cons, show seg.length + 1 + n = seg.length + n + 1 by omega, hrun₁, hrun₂]

/-- With all reference bits set, `evict` clears them and returns no frame. -/
theorem evict_all (h : Tracks cap r fs) (hcap : cap ≤ 65535) (href : ∀ x ∈ fs, x.ref = true) :
    ∃ r', SomeDB.evict r = (.ok none, r') ∧ Tracks cap r' (fs.map Tracked.clear) := by
  rw [SomeDB.evict, Prog.get_bind]
  by_cases hsize : r.frames.size = 0
  · have hnil : fs = [] := List.length_eq_zero_iff.mp (by rw [← h.size]; exact hsize)
    subst hnil
    exact ⟨r, by rw [if_pos hsize]; rfl, h⟩
  rw [if_neg hsize]
  -- the hand is on a frame `x` once the loop starts
  obtain ⟨r₁, a, x, b, hfs, hhand, htracks, hrun⟩ : ∃ r₁ a x b, fs = a ++ x :: b ∧ r₁.hand = some x.id ∧
      Tracks cap r₁ fs ∧
      (do
        if r.hand = none then Prog.modify fun r => { r with hand := r.frames.nodes.head?.map (·.id) }
        evictLoop r.frames.size : ClockM (Option Nat)) r = evictLoop fs.length r₁ := by
    cases hhand : r.hand with
    | some id =>
      obtain ⟨x, hx, rfl⟩ := List.mem_map.mp (h.hand id hhand)
      obtain ⟨a, b, rfl⟩ := List.append_of_mem hx
      refine ⟨r, a, x, b, rfl, hhand, h, ?_⟩
      rw [if_neg (by simp), ← h.size]
    | none =>
      cases fs with
      | nil => exact absurd h.size hsize
      | cons x fs =>
        have hhead : (r.frames.nodes.head?.map (·.id)) = some x.id := by rw [h.nodes]; rfl
        refine ⟨{ r with hand := r.frames.nodes.head?.map (·.id) }, [], x, fs, rfl, hhead, ?_, ?_⟩
        · refine ⟨h.nodes, h.size, h.capacity, h.below, h.nodup, h.ids, h.fresh, h.table, fun id hid => ?_, h.live⟩
          rw [hhead] at hid
          cases hid
          simp
        · rw [if_pos rfl, Prog.modify_bind, ← h.size]
  rw [hrun]
  subst hfs
  have hx : ∀ y ∈ x :: b, y.ref = true := fun y hy => href y (List.mem_append_right _ hy)
  have ha : ∀ y ∈ a, y.ref = true := fun y hy => href y (List.mem_append_left _ hy)
  obtain ⟨r₂, hrun₂, htracks₂, hhand₂⟩ := @evict_rounds cap r₁ a [] (x :: b)
    (by simpa using htracks) hcap (by rw [hhand]; simp) hx a.length
  obtain ⟨r₃, hrun₃, htracks₃, -⟩ := @evict_rounds cap r₂ [] ((x :: b).map Tracked.clear) a
    (by simpa using htracks₂) hcap (by rw [hhand₂]; cases a <;> simp [Tracked.clear]) ha 0
  refine ⟨r₃, ?_, by simpa using htracks₃⟩
  rw [List.length_append, Nat.add_comm, hrun₂]
  exact hrun₃

end Tracks

/-! ## Runs of calls -/

/-- The reference bit that the table has for a key. -/
def refBit (r : ClockReplacer) (key : CString) : Option Bool :=
  match (hashFind true key r.frameTable).1 with
  | .ok (some el) => some el.data.ref
  | _ => none

/-- When a call leaves the list, the table and the hand in agreement. `clock_replacer_unpin` does not look
whether the list has the frame; `clock_replacer_pin` removes one of the first two nodes whatever the frame
is; `evict` leaves the hand on a node it frees. -/
def ClockSafe (r : ClockReplacer) : ClockOp → Prop
  | .unpin frame => r.frames.size = r.frames.capacity ∨ sprintfU frame ∉ r.frames.nodes.map (·.value)
  | .pin frame => r.frames.nodes = [] ∨
    ∃ node ∈ r.frames.nodes.take 2, node.value = sprintfU frame ∧ r.hand ≠ some node.id
  | .evict => ∀ node ∈ r.frames.nodes, refBit r node.value = some true

instance (r : ClockReplacer) : ∀ op, Decidable (ClockSafe r op)
  | .unpin _ => inferInstanceAs (Decidable (_ ∨ _))
  | .pin _ => inferInstanceAs (Decidable (_ ∨ _))
  | .evict => inferInstanceAs (Decidable (∀ node ∈ r.frames.nodes, refBit r node.value = some true))

/-- The call is about a frame below the capacity. -/
def ClockOp.Below (cap : Nat) : ClockOp → Prop
  | .unpin frame => frame < cap
  | .pin frame => frame < cap
  | .evict => True

/-- The keys of a table. -/
def HashTable.keys {α : Type} (ht : HashTable α) : List CString :=
  ht.arr.flatMap fun b => b.chain.map (·.key)

/-- The list, the table and the hand agree. -/
structure RepOk (cap : Nat) (r : ClockReplacer) : Prop where
  nodup : (r.frames.nodes.map (·.value)).Nodup
  keys : ∀ k, k ∈ r.frames.nodes.map (·.value) ↔ k ∈ r.frameTable.keys
  size : r.frames.size = r.frames.nodes.length
  bound : r.frames.size ≤ cap
  hand : ∀ id, r.hand = some id → id ∈ r.frames.nodes.map (·.id)

namespace Tracks

variable {cap : Nat} {r : ClockReplacer} {fs : List Tracked}

theorem values (h : Tracks cap r fs) : r.frames.nodes.map (·.value) = fs.map fun x => sprintfU x.frame := by
  rw [h.nodes, List.map_map]
  rfl

theorem length_le (h : Tracks cap r fs) : fs.length ≤ cap := by
  have hsub : fs.map (·.frame) ⊆ List.range cap := by
    intro f hf
    obtain ⟨x, hx, rfl⟩ := List.mem_map.mp hf
    exact List.mem_range.mpr (h.below x hx)
  have hle := (List.Nodup.subperm h.nodup hsub).length_le
  rwa [List.length_map, List.length_range] at hle

theorem repOk (h : Tracks cap r fs) (hcap : cap ≤ 65535) : RepOk cap r where
  nodup := by
    have hmap : (fs.map fun x => sprintfU x.frame) = (fs.map (·.frame)).map sprintfU := by
      rw [List.map_map]
      rfl
    rw [h.values, hmap]
    exact h.nodup.map fun _ _ => sprintfU_inj
  keys k := by
    rw [h.values, HashTable.keys, List.mem_flatMap]
    constructor
    · intro hk
      obtain ⟨x, hx, rfl⟩ := List.mem_map.mp hk
      obtain ⟨i, b, hi, hb, -⟩ := h.table.bucketOf_ok (atoi_frame (h.below x hx) hcap)
      have hfind := h.table.find _ i b hi hb
      rw [Tracked.lookup_of_mem h.nodup hx] at hfind
      exact ⟨b, List.mem_of_getElem? hb, List.mem_map.mpr ⟨_, List.mem_of_find?_eq_some hfind, rfl⟩⟩
    · rintro ⟨b, hb, hk⟩
      obtain ⟨i, hi⟩ := List.mem_iff_getElem?.mp hb
      obtain ⟨el, hel, rfl⟩ := List.mem_map.mp hk
      obtain ⟨d, hd⟩ := Option.isSome_iff_exists.mp (h.table.mem_map hi hel)
      obtain ⟨y, hy, he, -⟩ := Tracked.mem_of_lookup hd
      exact List.mem_map.mpr ⟨y, hy, he.symm⟩
  size := by rw [h.size, h.nodes, List.length_map]
  bound := by
    rw [h.size]
    exact h.length_le
  hand id hid := by
    rw [h.nodes, List.map_map]
    exact h.hand id hid

theorem refBit_eq (h : Tracks cap r fs) (hcap : cap ≤ 65535) {x : Tracked} (hx : x ∈ fs) :
    refBit r x.node.value = some x.ref := by
  have hfind := h.table.hashFind_ok (atoi_frame (h.below x hx) hcap) true
  rw [Tracked.lookup_of_mem h.nodup hx] at hfind
  rw [refBit, show x.node.value = sprintfU x.frame from rfl, hfind]
  rfl

/-- A safe call returns, and the replacer holds frames again. -/
theorem step {op : ClockOp} (h : Tracks cap r fs) (hcap : cap ≤ 65535) (hbelow : op.Below cap)
    (hsafe : ClockSafe r op) : ∃ o r' fs', clockOp op r = (.ok o, r') ∧ Tracks cap r' fs' := by
  cases op with
  | unpin f =>
    rcases hsafe with hfull | hnew
    · rw [h.size, h.capacity] at hfull
      exact ⟨none, r, fs, by rw [clockOp, Prog.bind_ok (h.unpin_full hfull)]; rfl, h⟩
    · by_cases hfull : fs.length = cap
      · exact ⟨none, r, fs, by rw [clockOp, Prog.bind_ok (h.unpin_full hfull)]; rfl, h⟩
      have hnew' : f ∉ fs.map (·.frame) := by
        intro hf
        obtain ⟨x, hx, rfl⟩ := List.mem_map.mp hf
        rw [h.values] at hnew
        exact hnew (List.mem_map.mpr ⟨x, hx, rfl⟩)
      have hroom : fs.length < cap := Nat.lt_of_le_of_ne h.length_le hfull
      obtain ⟨r', id, hrun, htracks, -⟩ := h.unpin_new hcap hbelow hnew' hroom
      exact ⟨none, r', _, by rw [clockOp, Prog.bind_ok hrun]; rfl, htracks⟩
  | pin f =>
    rcases hsafe with hempty | ⟨node, hnode, hvalue, hhand⟩
    · have hnil : fs = [] := by
        rw [h.nodes] at hempty
        exact List.map_eq_nil_iff.mp hempty
      subst hnil
      obtain ⟨r', hrun, htracks⟩ := h.pin_empty hcap hbelow
      exact ⟨none, r', _, by rw [clockOp, Prog.bind_ok hrun]; rfl, htracks⟩
    · rw [h.nodes, ← List.map_take] at hnode
      obtain ⟨x, hx, rfl⟩ := List.mem_map.mp hnode
      obtain rfl : x.frame = f := sprintfU_inj hvalue
      -- the frame is the first or the second of the list
      rcases fs with _ | ⟨y, _ | ⟨z, fs⟩⟩
      · cases hx
      · obtain rfl : x = y := by simpa using hx
        obtain ⟨r', hrun, htracks, -⟩ := h.pin_first hcap hhand
        exact ⟨none, r', _, by rw [clockOp, Prog.bind_ok hrun]; rfl, htracks⟩
      · rcases List.mem_pair.mp hx with rfl | rfl
        · obtain ⟨r', hrun, htracks, -⟩ := h.pin_first hcap hhand
          exact ⟨none, r', _, by rw [clockOp, Prog.bind_ok hrun]; rfl, htracks⟩
        · obtain ⟨r', hrun, htracks, -⟩ := h.pin_second hcap hhand
          exact ⟨none, r', _, by rw [clockOp, Prog.bind_ok hrun]; rfl, htracks⟩
  | evict =>
    have href : ∀ x ∈ fs, x.ref = true := by
      intro x hx
      have hbit := hsafe x.node (by rw [h.nodes]; exact List.mem_map_of_mem hx)
      rw [h.refBit_eq hcap hx] at hbit
      exact Option.some.inj hbit
    obtain ⟨r', hrun, htracks⟩ := h.evict_all hcap href
    exact ⟨none, r', _, hrun, htracks⟩

end Tracks

/-- Every run of safe calls returns, and the list, the table and the hand agree after it. -/
theorem clock_run_repOk {cap : Nat} {ops : List ClockOp} (hcap : cap ≤ 65535)
    (hbelow : ∀ op ∈ ops, op.Below cap)
    (hsafe : Prog.Meets clockOp ClockSafe ops (clockReplacerInit cap)) :
    ∃ rs r, Prog.runAll clockOp ops (clockReplacerInit cap) = (.ok rs, r) ∧ RepOk cap r := by
  rcases Nat.eq_zero_or_pos cap with rfl | hpos
  · -- only `evict` can be called
    refine Prog.runAll_inv (fun _ _ r => r = clockReplacerInit 0 ∧ RepOk 0 r) (fun is rs r op hpre hinv _ => ?_)
      ⟨rfl, ?_⟩ hsafe |>.imp fun rs h => h.imp fun r h => ⟨h.1, h.2.2⟩
    · obtain ⟨rfl, hrep⟩ := hinv
      have hop := hbelow op (hpre.subset (by simp))
      cases op with
      | evict => exact ⟨none, _, rfl, rfl, hrep⟩
      | unpin f => exact absurd hop (Nat.not_lt_zero f)
      | pin f => exact absurd hop (Nat.not_lt_zero f)
    · exact ⟨List.nodup_nil, fun k => Iff.rfl, rfl, Nat.le_refl 0, fun id hid => by cases hid⟩
  · obtain ⟨rs, r, hrun, fs, htracks⟩ := Prog.runAll_inv (fun _ _ r => ∃ fs, Tracks cap r fs)
      (fun is rs r op hpre hinv hop => by
        obtain ⟨fs, h⟩ := hinv
        obtain ⟨o, r', fs', hrun, h'⟩ := h.step hcap (hbelow op (hpre.subset (by simp))) hop
        exact ⟨o, r', hrun, fs', h'⟩) ⟨[], Tracks.init cap hpos hcap⟩ hsafe
    exact ⟨rs, r, hrun, htracks.repOk hcap⟩

theorem clock_run_repOk_three : ∃ rs r, Prog.runAll clockOp
    [.unpin 0, .unpin 1, .unpin 2, .pin 1, .evict, .pin 0] (clockReplacerInit 3) = (.ok rs, r) ∧
    RepOk 3 r := clock_run_repOk (by decide) (by simp [ClockOp.Below]) (by decide)

/-- A frame that is unpinned twice is twice in the list. -/
theorem clock_run_repOk_fails : ∃ rs r, Prog.runAll clockOp [.unpin 0, .unpin 0] (clockReplacerInit 2) =
    (.ok rs, r) ∧ ¬ RepOk 2 r := by
  refine ⟨[none, none], (Prog.runAll clockOp [.unpin 0, .unpin 0] (clockReplacerInit 2)).2, rfl, fun h => ?_⟩
  exact absurd h.nodup (by decide)

end SomeDB
