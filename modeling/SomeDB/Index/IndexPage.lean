import SomeDB.Index.Key
import SomeDB.Utils.Serialize

/-!
# B+tree pages (`index_page.hpp`, `index_page.cpp`)

* `BTreePage` is a node in memory. `is_leaf` is read off the alternative that `values` holds: both
  constructors set the two together, and nothing changes either of them afterwards.
* `BTreePage.serializeInto` is `serialize()` with the buffer it allocates as an argument (`new u8[]`
  does not clear it). The cursors `available_space_start` and `available_space_end` are `u16`
  variables, so they are natural numbers modulo 2^16; a write outside of the buffer is a fault.
* `BTreePage.decode` is the constructor `BTreePage(u8*)`. Each turn of its loop takes one unit of
  fuel; 4097 turns are enough for every page on which the cursor always moves.
* `insertIntoNode` is one function of the type of the values, as in the source.
-/

namespace SomeDB

open Lib

/-- The `std::variant` of a node's values: record ids (leaf) or child pointers (internal). -/
inductive NodeValues where
  | records (rids : List RID)
  | children (pids : List PageId)
  deriving DecidableEq, Repr

/-- `BTreePage`. -/
structure BTreePage where
  keys : List BTreeKey
  flags : UInt8
  rightmostPtr : PageId
  next : PageId
  values : NodeValues
  deriving DecidableEq, Repr

/-- What `new` leaves in memory that nothing initialises: the fields that `BTreePage(bool)` does not
set, and the bytes of a buffer. -/
structure Uninit where
  flags : UInt8
  rightmostPtr : PageId
  next : PageId
  bytes : Page

namespace BTreePage

/-- `is_leaf`. -/
def isLeaf (p : BTreePage) : Bool :=
  match p.values with
  | .records _ => true
  | .children _ => false

/-- `BTreePage(bool is_leaf)`, with `u` in the fields it leaves uninitialised. -/
def new (isLeaf : Bool) (u : Uninit) : BTreePage :=
  { keys := [], flags := u.flags, rightmostPtr := u.rightmostPtr, next := u.next,
    values := if isLeaf then .records [] else .children [] }

/-- `LEAF_RECORDS`. -/
def leafRecords (p : BTreePage) : Except Fault (List RID) :=
  match p.values with
  | .records rids => .ok rids
  | .children _ => .error .badVariant

/-- `INTERNAL_CHILDREN`. -/
def internalChildren (p : BTreePage) : Except Fault (List PageId) :=
  match p.values with
  | .records _ => .error .badVariant
  | .children pids => .ok pids

theorem values_of_internalChildren {p : BTreePage} {cs : List PageId}
    (h : p.internalChildren = .ok cs) : p.values = .children cs := by
  unfold internalChildren at h
  split at h
  · cases h
  · next hv => cases h; exact hv

theorem values_of_leafRecords {p : BTreePage} {rs : List RID} (h : p.leafRecords = .ok rs) :
    p.values = .records rs := by
  unfold leafRecords at h
  split at h
  · next hv => cases h; exact hv
  · cases h

theorem isLeaf_of_children {p : BTreePage} {cs : List PageId} (h : p.values = .children cs) :
    p.isLeaf = false := by
  simp [isLeaf, h]

theorem values_of_not_isLeaf {p : BTreePage} (h : ¬ p.isLeaf = true) : ∃ cs, p.values = .children cs := by
  rcases hv : p.values with rids | pids
  · simp [isLeaf, hv] at h
  · exact ⟨pids, rfl⟩

theorem values_of_isLeaf {p : BTreePage} (h : p.isLeaf = true) : ∃ rs, p.values = .records rs := by
  rcases hv : p.values with rids | pids
  · exact ⟨rids, rfl⟩
  · simp [isLeaf, hv] at h

end BTreePage

/-- `std::vector::at`. -/
def vecAt {α : Type} (xs : List α) (i : Nat) : Except Fault α :=
  match xs[i]? with
  | some x => .ok x
  | none => .error .outOfRange

theorem vecAt_eq {α : Type} {xs : List α} {i : Nat} {x : α} (h : xs[i]? = some x) :
    vecAt xs i = .ok x := by
  simp [vecAt, h]

theorem getElem?_of_vecAt {α : Type} {xs : List α} {i : Nat} {x : α} (h : vecAt xs i = .ok x) :
    xs[i]? = some x := by
  unfold vecAt at h
  split at h
  · next hx => cases h; exact hx
  · cases h

/-! ## Serialization -/

/-- `encode_uint32(val.pid, ..)`, `encode_uint32(val.slot_num, ..)`. -/
def encodeRid (r : RID) : List UInt8 := encodeUint32 r.pid ++ encodeUint32 r.slotNum

/-- The record id that the constructor reads from eight bytes. -/
def decodeRid (bs : List UInt8) : RID := ⟨decodeUint32 (bs.take 4), decodeUint32 (bs.drop 4)⟩

/-- The encoded value `i` (`val_buf`, of `val_size` bytes). -/
def BTreePage.valBuf (p : BTreePage) (i : Nat) : Except Fault (List UInt8) :=
  match p.values with
  | .records rids => (vecAt rids i).map encodeRid
  | .children pids => (vecAt pids i).map encodeUint32

/-- The bytes of the pair at `kv_start`: the key's length, the key, the value. -/
def kvBytes (key : BTreeKey) (valBuf : List UInt8) : List UInt8 :=
  UInt8.ofNat key.length :: (key.data ++ valBuf)

/-- The loop of `serialize()`: the pairs `i - 1, .., 0` still have to be written. -/
def BTreePage.serializeLoop (p : BTreePage) :
    Nat → Page → Nat → Nat → Except Fault (Page × Nat × Nat)
  | 0, data, availableSpaceStart, availableSpaceEnd =>
    .ok (data, availableSpaceStart, availableSpaceEnd)
  | i + 1, data, availableSpaceStart, availableSpaceEnd => do
    let key ← vecAt p.keys i
    let valBuf ← p.valBuf i
    let kvSize := valBuf.length + key.length + 1
    let kvStart := (availableSpaceEnd + 65536 - kvSize) % 65536
    let data ← memcpy data kvStart (kvBytes key valBuf)
    let data ← memcpy data availableSpaceStart
      (encodeUint16 (UInt16.ofNat kvStart) ++ encodeUint16 (UInt16.ofNat kvSize))
    serializeLoop p i data ((availableSpaceStart + 4) % 65536)
      ((availableSpaceEnd + 65536 - kvSize) % 65536)

/-- `AVAILABLE_SPACE_START_OFFSET` = 0, `AVAILABLE_SPACE_END_OFFSET` = 2, `NEXT_PID_OFFSET` = 4,
`RIGHTMOST_PID_OFFSET` = 8, `TREE_FLAGS_OFFSET` = 12, `IS_LEAF_OFFSET` = 13: the six header fields,
in the order in which the page holds them. -/
def BTreePage.headerBytes (p : BTreePage) (availableSpaceStart availableSpaceEnd : Nat) :
    List UInt8 :=
  encodeUint16 (UInt16.ofNat availableSpaceStart) ++ encodeUint16 (UInt16.ofNat availableSpaceEnd) ++
    encodeUint32 p.next ++ encodeUint32 p.rightmostPtr ++ [p.flags, if p.isLeaf then 1 else 0]

/-- `INDEX_PAGE_HEADER_SIZE`. The macro adds `IS_LEAF_OFFSET` (13) and not `IS_LEAF_SIZE` (1), so
12 bytes between the header and the slots stay unused. -/
def INDEX_PAGE_HEADER_SIZE : Nat := 26

/-- `BTreePage::serialize` into the buffer `buf` that it allocates. -/
def BTreePage.serializeInto (p : BTreePage) (buf : Page) : Except Fault Page := do
  let (data, availableSpaceStart, availableSpaceEnd) ←
    p.serializeLoop p.keys.length buf INDEX_PAGE_HEADER_SIZE 4096
  .ok (data.blit 0 (p.headerBytes availableSpaceStart availableSpaceEnd))

/-! ## Deserialization -/

/-- The loop of `BTreePage(u8*)` for values of `valSize` bytes, read by `decodeVal`. A length byte of
0 marks an empty slot: the cursor moves on by `skip` bytes. -/
def decodePairs {α : Type} (data : Page) (valSize : Nat) (decodeVal : List UInt8 → α) (skip : Nat) :
    Nat → Nat → Except Fault (List (BTreeKey × α))
  | 0, _ => .error .diverges
  | fuel + 1, cursor =>
    if cursor < 4096 then
      let currKeyLen := data.byte cursor
      if currKeyLen = 0 then
        decodePairs data valSize decodeVal skip fuel (cursor + skip)
      else if cursor + 1 + currKeyLen.toNat + valSize ≤ 4096 then do
        let key : BTreeKey := ⟨data.slice (cursor + 1) currKeyLen.toNat, by
          have := currKeyLen.toNat_lt; simp; omega⟩
        let val := decodeVal (data.slice (cursor + 1 + currKeyLen.toNat) valSize)
        let rest ← decodePairs data valSize decodeVal skip fuel
          (cursor + 1 + currKeyLen.toNat + valSize)
        .ok ((key, val) :: rest)
      else .error .outOfBounds
    else .ok []

/-- `BTreePage(u8 data[PAGE_SIZE])`. The statement that skips an empty slot,
`is_leaf ? kv_pairs_cursor += RID_SIZE : TREE_KV_PTR_SIZE`, moves the cursor of a leaf by 8 and that
of an internal node by nothing. -/
def BTreePage.decode (data : Page) : Except Fault BTreePage := do
  let next := decodeUint32 (data.slice 4 4)
  let rightmostPtr := decodeUint32 (data.slice 8 4)
  let flags := data.byte 12
  let cursor := (decodeUint16 (data.slice 2 2)).toNat
  if data.byte 13 ≠ 0 then
    let pairs ← decodePairs data 8 decodeRid 8 4097 cursor
    .ok { keys := pairs.map (·.1), flags, rightmostPtr, next, values := .records (pairs.map (·.2)) }
  else
    let pairs ← decodePairs data 4 decodeUint32 0 4097 cursor
    .ok { keys := pairs.map (·.1), flags, rightmostPtr, next, values := .children (pairs.map (·.2)) }

/-! ## Halving and insertion -/

/-- `vec_second_half`. -/
def vecSecondHalf {α : Type} (fullVec : List α) (includeMid : Bool) : Except Fault (List α) :=
  let first := fullVec.length / 2 + if includeMid then 0 else 1
  if first ≤ fullVec.length then .ok (fullVec.drop first) else .error .outOfBounds

/-- `vec_first_half`. -/
def vecFirstHalf {α : Type} (fullVec : List α) (includeMid : Bool) : Except Fault (List α) :=
  let last := fullVec.length / 2 + if includeMid then 1 else 0
  if last ≤ fullVec.length then .ok (fullVec.take last) else .error .outOfBounds

/-- `std::vector::resize(n)`; new elements are value-initialised. -/
def resize {α : Type} [Inhabited α] (xs : List α) (n : Nat) : List α :=
  xs.take n ++ List.replicate (n - xs.length) default

/-- The inner loop of `insertIntoNode` over one of its two arrays: the element at `j + 2` is replaced
by `prev` and becomes the next `prev`, for `n` values of `j`. -/
def shiftRight {α : Type} (xs : List α) (j : Nat) (prev : α) : Nat → Except Fault (List α)
  | 0 => .ok xs
  | n + 1 => do
    let temp ← vecAt xs (j + 2)
    shiftRight (xs.set (j + 2) prev) (j + 1) temp n

/-- One array of `insertIntoNode` after the body of its search loop ran for `i`: `x` is put at
`i + 1` and what follows moves right. -/
def shiftIn {α : Type} (xs : List α) (i size : Nat) (x : α) : Except Fault (List α) := do
  let prev ← vecAt xs (i + 1)
  shiftRight (xs.set (i + 1) x) i prev (size - 1 - i)

/-- The loop of `insertIntoNode` that looks for the place of a key in the middle, from `i` on, with
`n` values of `i` left. -/
def insertMiddle {α : Type} (key : BTreeKey) (val : α) (size : Nat) (keys : List BTreeKey)
    (vals : List α) : Nat → Nat → Except Fault (List BTreeKey × List α)
  | _, 0 => .ok (keys, vals)
  | i, n + 1 => do
    let currKey ← vecAt keys i
    let nextKey ← vecAt keys (i + 1)
    if cmpKeys key currKey > 0 ∧ cmpKeys key nextKey ≤ 0 then
      .ok (← shiftIn keys i size key, ← shiftIn vals i size val)
    else insertMiddle key val size keys vals (i + 1) n

/-- `insertIntoNode<VAL_T>` on the keys and values of a node. `size` is a `uint16_t`. -/
def insertIntoVecs {α : Type} [Inhabited α] (key : BTreeKey) (val : α) (keys : List BTreeKey)
    (vals : List α) : Except Fault (List BTreeKey × List α) := do
  let size := keys.length % 65536
  let keys := resize keys (size + 1)
  let vals := resize vals (size + 1)
  let firstKey ← vecAt keys 0
  let lastKey ← vecAt keys (if size = 0 then size else size - 1)
  if cmpKeys key lastKey ≥ 0 then
    -- new key is larger (or equal) than all current ones
    .ok (keys.set (keys.length - 1) key, vals.set (vals.length - 1) val)
  else if cmpKeys key firstKey ≤ 0 then
    -- new key is smaller (or equal) than all current ones
    .ok (key :: keys.dropLast, val :: vals.dropLast)
  else insertMiddle key val size keys vals 0 size

instance : Inhabited RID := ⟨⟨0, 0⟩⟩

/-- `insertIntoNode<RID>`. -/
def BTreePage.insertRecord (p : BTreePage) (key : BTreeKey) (val : RID) : Except Fault BTreePage := do
  let (keys, vals) ← insertIntoVecs key val p.keys (← p.leafRecords)
  .ok { p with keys, values := .records vals }

/-- `insertIntoNode<u32>`. -/
def BTreePage.insertChild (p : BTreePage) (key : BTreeKey) (val : PageId) :
    Except Fault BTreePage := do
  let (keys, vals) ← insertIntoVecs key val p.keys (← p.internalChildren)
  .ok { p with keys, values := .children vals }

end SomeDB
