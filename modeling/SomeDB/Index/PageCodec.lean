import SomeDB.Index.IndexPage

/-!
# The page codec

`serialize()` lays the pairs out backwards from the page end, the constructor scans them forwards by
key length. For a node that fits in a page (`FitsPage`) and has a value for each of its non-empty keys
(`Paired`), `decode_serializeInto` says that decoding gives the node back, with the values beyond the
last key dropped: an internal node that was split still holds one child too many in memory, and only
serialization drops it.
-/

namespace SomeDB

open Lib

/-! ## Sizes -/

namespace BTreePage

/-- The number of values. -/
def valCount (p : BTreePage) : Nat :=
  match p.values with
  | .records rids => rids.length
  | .children pids => pids.length

theorem valCount_records {p : BTreePage} {rs : List RID} (h : p.values = .records rs) :
    p.valCount = rs.length := by
  simp [valCount, h]

theorem valCount_children {p : BTreePage} {cs : List PageId} (h : p.values = .children cs) :
    p.valCount = cs.length := by
  simp [valCount, h]

/-- The bytes of a value: `RID_SIZE` or `sizeof(u32)`. -/
def valSize (p : BTreePage) : Nat := if p.isLeaf then 8 else 4

/-- The bytes of all pairs. -/
def pairsSize (p : BTreePage) : Nat := (p.keys.map fun k => 1 + k.length + p.valSize).sum

/-- The header, the slots and the pairs take at most a page. -/
def FitsPage (p : BTreePage) : Prop := 26 + 4 * p.keys.length + p.pairsSize ≤ 4096

instance (p : BTreePage) : Decidable p.FitsPage := inferInstanceAs (Decidable (_ ≤ _))

/-- No key is empty and every key has a value. -/
def Paired (p : BTreePage) : Prop := (∀ k ∈ p.keys, 1 ≤ k.length) ∧ p.keys.length ≤ p.valCount


/-- The node without the values beyond its last key. -/
def trim (p : BTreePage) : BTreePage :=
  { p with values :=
      match p.values with
      | .records rids => .records (rids.take p.keys.length)
      | .children pids => .children (pids.take p.keys.length) }

/-- The encoded values. -/
def valBufs (p : BTreePage) : List (List UInt8) :=
  match p.values with
  | .records rids => rids.map encodeRid
  | .children pids => pids.map encodeUint32

theorem valBufs_length (p : BTreePage) : p.valBufs.length = p.valCount := by
  unfold valBufs valCount; split <;> simp

theorem length_of_mem_valBufs {p : BTreePage} {bs : List UInt8} (h : bs ∈ p.valBufs) :
    bs.length = p.valSize := by
  unfold valBufs at h
  unfold valSize isLeaf
  split at h <;> simp_all <;> obtain ⟨v, -, rfl⟩ := h <;> simp [encodeRid]

theorem valBuf_eq {p : BTreePage} {i : Nat} {vb : List UInt8} (h : p.valBufs[i]? = some vb) :
    p.valBuf i = .ok vb := by
  rcases p with ⟨keys, flags, rm, next, rids | pids⟩ <;>
    simp only [valBufs, List.getElem?_map, Option.map_eq_some_iff] at h <;>
    obtain ⟨v, hv, rfl⟩ := h <;> simp [valBuf, vecAt, hv, Except.map]

end BTreePage

/-! ## Encoding -/

@[simp] theorem kvBytes_length (key : BTreeKey) (vb : List UInt8) :
    (kvBytes key vb).length = 1 + key.length + vb.length := by
  simp [kvBytes, BTreeKey.length]; omega

/-- The bytes of a slot: the start and the size of its pair. -/
def kvSlot (start size : Nat) : List UInt8 := encodeUint16 (UInt16.ofNat start) ++ encodeUint16 (UInt16.ofNat size)

@[simp] theorem kvSlot_length (start size : Nat) : (kvSlot start size).length = 4 := rfl

/-- The page with a pair written right below `e` and its slot at `s`. -/
def withPair (data : Page) (s e : Nat) (kv : List UInt8) : Page :=
  (data.blit (e - kv.length) kv).blit s (kvSlot (e - kv.length) kv.length)

/-- The pair and its slot do not touch what lies above `e`. -/
theorem withPair_slice (data : Page) (kv : List UInt8) {s e : Nat} (he : e ≤ 4096)
    (hs : s + 4 + kv.length ≤ e) :
    (withPair data s e kv).slice (e - kv.length) (4096 - (e - kv.length)) = kv ++ data.slice e (4096 - e) := by
  have hlow : (withPair data s e kv).slice (e - kv.length) kv.length = kv := by
    rw [withPair, Block.slice_blit_disjoint _ (by simp; omega)]
    exact Block.slice_blit data _ kv (by omega)
  have hhigh : (withPair data s e kv).slice e (4096 - e) = data.slice e (4096 - e) := by
    rw [withPair, Block.slice_blit_disjoint _ (by simp; omega), Block.slice_blit_disjoint _ (by omega)]
  rw [show 4096 - (e - kv.length) = kv.length + (4096 - e) by omega, Block.slice_add, hlow,
    show e - kv.length + kv.length = e by omega, hhigh]

namespace BTreePage

/-- The pairs as bytes, in key order. -/
def kvs (p : BTreePage) : List (List UInt8) := List.zipWith kvBytes p.keys p.valBufs

/-- The first `i` pairs as one string of bytes. -/
def prefixBytes (p : BTreePage) (i : Nat) : List UInt8 := (p.kvs.take i).flatten

theorem prefixBytes_succ {p : BTreePage} {i : Nat} {key : BTreeKey} {vb : List UInt8}
    (hk : p.keys[i]? = some key) (hv : p.valBufs[i]? = some vb) :
    p.prefixBytes (i + 1) = p.prefixBytes i ++ kvBytes key vb := by
  have : p.kvs[i]? = some (kvBytes key vb) := by
    simp [kvs, List.getElem?_zipWith, hk, hv]
  simp [prefixBytes, List.take_add_one, this]

theorem prefixBytes_length (p : BTreePage) : (p.prefixBytes p.keys.length).length =
    ((List.zipWith (fun k _ => 1 + k.length + p.valSize) p.keys p.valBufs)).sum := by
  have hall : ∀ (ks : List BTreeKey) (vs : List (List UInt8)), (∀ v ∈ vs, v.length = p.valSize) →
      ((List.zipWith kvBytes ks vs).flatten).length =
        (List.zipWith (fun k _ => 1 + k.length + p.valSize) ks vs).sum := by
    intro ks
    induction ks with
    | nil => simp
    | cons k ks ih =>
      intro vs hvs
      cases vs with
      | nil => simp
      | cons v vs =>
        simp only [List.zipWith_cons_cons, List.flatten_cons, List.length_append, kvBytes_length,
          List.sum_cons, hvs v (by simp), ih vs fun x hx => hvs x (by simp [hx])]
  have hk : p.kvs.take p.keys.length = p.kvs := by
    apply List.take_of_length_le
    rw [kvs, List.length_zipWith]
    exact Nat.min_le_left ..
  rw [prefixBytes, hk, kvs]
  exact hall _ _ fun v hv => length_of_mem_valBufs hv

/-- With a value for each key, the pairs take `pairsSize` bytes. -/
theorem prefixBytes_length_eq {p : BTreePage} (h : p.keys.length ≤ p.valCount) :
    (p.prefixBytes p.keys.length).length = p.pairsSize := by
  rw [prefixBytes_length, pairsSize]
  rw [← valBufs_length] at h
  congr 1
  generalize p.valBufs = vs at h
  generalize p.keys = ks at h ⊢
  induction ks generalizing vs with
  | nil => simp
  | cons k ks ih =>
    cases vs with
    | nil => simp at h
    | cons v vs => simp only [List.zipWith_cons_cons, List.map_cons]; rw [ih vs (by simpa using h)]

/-- One turn of the loop. -/
theorem serializeLoop_succ {p : BTreePage} {i : Nat} {key : BTreeKey} {vb : List UInt8}
    (hk : p.keys[i]? = some key) (hv : p.valBufs[i]? = some vb) (data : Page) {s e : Nat} (he : e ≤ 4096)
    (hs : s + 4 + (kvBytes key vb).length ≤ e) :
    p.serializeLoop (i + 1) data s e =
      p.serializeLoop i (withPair data s e (kvBytes key vb)) (s + 4) (e - (kvBytes key vb).length) := by
  have hsize : vb.length + key.length + 1 = (kvBytes key vb).length := by
    rw [kvBytes_length]
    omega
  have hmod : (s + 4) % 65536 = s + 4 := by omega
  simp only [serializeLoop, vecAt_eq hk, valBuf_eq hv, bind, Except.bind, hsize]
  generalize kvBytes key vb = kv at hs
  have hstart : (e + 65536 - kv.length) % 65536 = e - kv.length := by omega
  rw [hstart, memcpy_ok (by omega)]
  simp only
  rw [memcpy_ok (by simp; omega), hmod]
  rfl

/-- The loop writes the pairs `i - 1, .., 0` below what is there already, and keeps that. -/
theorem serializeLoop_spec {p : BTreePage} (hv : p.keys.length ≤ p.valCount) :
    ∀ (i : Nat) (data : Page) (s e : Nat), i ≤ p.keys.length → e ≤ 4096 →
      s + 4 * i + (p.prefixBytes i).length ≤ e →
      ∃ data', p.serializeLoop i data s e = .ok (data', s + 4 * i, e - (p.prefixBytes i).length) ∧
        data'.slice (e - (p.prefixBytes i).length) (4096 - (e - (p.prefixBytes i).length)) =
          p.prefixBytes i ++ data.slice e (4096 - e) := by
  intro i
  induction i with
  | zero => intro data s e _ _ _; exact ⟨data, by simp [serializeLoop, prefixBytes], by simp [prefixBytes]⟩
  | succ i ih =>
    intro data s e hi he hs
    obtain ⟨key, hk⟩ : ∃ key, p.keys[i]? = some key :=
      ⟨_, List.getElem?_eq_getElem (by omega)⟩
    obtain ⟨vb, hvb⟩ : ∃ vb, p.valBufs[i]? = some vb :=
      ⟨_, List.getElem?_eq_getElem (by rw [valBufs_length]; omega)⟩
    rw [prefixBytes_succ hk hvb, List.length_append] at hs ⊢
    rw [serializeLoop_succ hk hvb data he (by omega)]
    have hsplit := withPair_slice data (kvBytes key vb) (s := s) he (by omega)
    generalize kvBytes key vb = kv at hs hsplit ⊢
    obtain ⟨data', hrun, hdata⟩ := ih (withPair data s e kv) (s + 4) (e - kv.length) (by omega) (by omega)
      (by omega)
    rw [hsplit, ← List.append_assoc, Nat.sub_sub, Nat.add_comm kv.length] at hdata
    refine ⟨data', ?_, hdata⟩
    rw [hrun, Nat.sub_sub, Nat.add_comm kv.length, show s + 4 + 4 * i = s + 4 * (i + 1) by omega]

end BTreePage

/-! ## Decoding -/

/-- The scan reads back pairs that lie one after the other up to the page end. -/
theorem decodePairs_spec {α : Type} (data : Page) (valSize skip : Nat) (dec : List UInt8 → α)
    (enc : α → List UInt8) (hlen : ∀ v, (enc v).length = valSize) (hdec : ∀ v, dec (enc v) = v) :
    ∀ (kvs : List (BTreeKey × α)) (fuel cursor : Nat), (∀ kv ∈ kvs, 1 ≤ kv.1.length) →
      kvs.length < fuel → cursor ≤ 4096 →
      data.slice cursor (4096 - cursor) = (kvs.map fun kv => kvBytes kv.1 (enc kv.2)).flatten →
      decodePairs data valSize dec skip fuel cursor = .ok kvs := by
  intro kvs
  induction kvs with
  | nil =>
    intro fuel cursor _ hf hc hd
    have : cursor = 4096 := by
      have := congrArg List.length hd; simp at this; omega
    obtain ⟨fuel, rfl⟩ : ∃ n, fuel = n + 1 := ⟨fuel - 1, by simp at hf; omega⟩
    simp [decodePairs, this]
  | cons kv kvs ih =>
    intro fuel cursor hpos hf hc hd
    obtain ⟨key, v⟩ := kv
    simp only [List.map_cons, List.flatten_cons] at hd
    have hkey := hpos (key, v) (by simp)
    simp only at hkey
    have hle := key.length_le
    have hl : (kvBytes key (enc v)).length = 1 + key.length + valSize := by simp [hlen]
    have htot := congrArg List.length hd
    simp only [Block.slice_length, List.length_append, hl] at htot
    obtain ⟨fuel, rfl⟩ : ∃ n, fuel = n + 1 := ⟨fuel - 1, by simp at hf; omega⟩
    -- cut the bytes from the cursor on into this pair's and the others'
    rw [show 4096 - cursor = (1 + key.length + valSize) + (4096 - (cursor + 1 + key.length + valSize))
      by omega, Block.slice_add] at hd
    obtain ⟨hthis, hrest⟩ := List.append_inj hd (by simp [hlen])
    rw [show 1 + key.length + valSize = (key.length + valSize) + 1 by omega, Block.slice_succ,
      Block.slice_add, kvBytes] at hthis
    simp only [List.cons.injEq] at hthis
    obtain ⟨hbyte, hthis⟩ := hthis
    obtain ⟨hkd, hvd⟩ := List.append_inj hthis (by simp [BTreeKey.length])
    have hn : (UInt8.ofNat key.length).toNat = key.length := by
      simp only [BTreeKey.length] at hle ⊢; simp; omega
    have hne : data.byte cursor ≠ 0 := by
      rw [hbyte]; intro h0
      have := congrArg UInt8.toNat h0
      rw [hn] at this; simp at this; omega
    have hkn : (data.byte cursor).toNat = key.length := by rw [hbyte, hn]
    have ihr := ih fuel (cursor + 1 + key.length + valSize) (fun x hx => hpos x (by simp [hx]))
      (by simp at hf; omega) (by omega)
      (by rwa [show cursor + (1 + key.length + valSize) = cursor + 1 + key.length + valSize
            by omega] at hrest)
    rw [decodePairs, if_pos (by omega)]
    simp only [hne, if_false, hkn]
    rw [if_pos (by omega)]
    simp only [hkd, ihr, bind, Except.bind]
    rw [hvd, hdec]

/-- Every key that the scan returns is non-empty, and there are fewer of them than turns. -/
theorem decodePairs_keys {α : Type} {data : Page} {valSize skip : Nat} {dec : List UInt8 → α} :
    ∀ (fuel cursor : Nat) (kvs : List (BTreeKey × α)),
      decodePairs data valSize dec skip fuel cursor = .ok kvs →
      kvs.length < fuel ∧ ∀ kv ∈ kvs, 1 ≤ kv.1.length := by
  intro fuel
  induction fuel with
  | zero => intro cursor kvs h; cases h
  | succ fuel ih =>
    intro cursor kvs h
    rw [decodePairs] at h
    split at h
    · simp only at h
      split at h
      · have := ih _ _ h; exact ⟨by omega, this.2⟩
      · next hne =>
        split at h
        · cases hrest : decodePairs data valSize dec skip fuel
              (cursor + 1 + (data.byte cursor).toNat + valSize) with
          | error e => simp [hrest, bind, Except.bind] at h
          | ok rest =>
            simp only [hrest, bind, Except.bind, Except.ok.injEq] at h
            obtain ⟨hl, hk⟩ := ih _ _ hrest
            subst h
            refine ⟨by simpa using hl, ?_⟩
            intro kv hkv
            rcases List.mem_cons.mp hkv with rfl | hkv
            · have : (data.byte cursor).toNat ≠ 0 := fun h0 => hne (UInt8.toNat_inj.mp (by simpa using h0))
              simp only [BTreeKey.length, Block.slice_length]
              omega
            · exact hk kv hkv
        · cases h
    · cases h; exact ⟨by simp, by simp⟩

/-! ## The round trip -/

/-- The header fields are read back from where they were written. -/
theorem header_slices (data : Page) (p : BTreePage) (s e : Nat) :
    let page := data.blit 0 (p.headerBytes s e)
    decodeUint16 (page.slice 2 2) = UInt16.ofNat e ∧ decodeUint32 (page.slice 4 4) = p.next ∧
      decodeUint32 (page.slice 8 4) = p.rightmostPtr ∧ page.byte 12 = p.flags ∧
      page.byte 13 = if p.isLeaf then 1 else 0 := by
  intro page
  have h : page.slice 0 (2 + (2 + (4 + (4 + 2)))) = p.headerBytes s e :=
    Block.slice_blit_of_length data (by simp [BTreePage.headerBytes]) (by decide)
  simp only [Block.slice_add, BTreePage.headerBytes, List.append_assoc] at h
  obtain ⟨-, h⟩ := List.append_inj h (by simp)
  obtain ⟨h₂, h⟩ := List.append_inj h (by simp)
  obtain ⟨h₄, h⟩ := List.append_inj h (by simp)
  obtain ⟨h₈, h⟩ := List.append_inj h (by simp)
  simp only [Block.slice_succ, Block.slice_zero, List.cons.injEq, and_true] at h
  refine ⟨?_, ?_, ?_, h.1, h.2⟩
  · rw [h₂]; simp
  · rw [h₄]; simp
  · rw [h₈]; simp

theorem map_snd_zip_take {α β : Type} (xs : List α) (ys : List β) :
    (xs.zip ys).map (·.2) = ys.take xs.length := by
  induction xs generalizing ys with
  | nil => simp
  | cons x xs ih => cases ys <;> simp [ih]

theorem decodeRid_encodeRid (r : RID) : decodeRid (encodeRid r) = r := by
  have ht : (encodeRid r).take 4 = encodeUint32 r.pid := List.take_left' (by simp)
  have hd : (encodeRid r).drop 4 = encodeUint32 r.slotNum := List.drop_left' (by simp)
  rw [decodeRid, ht, hd]; simp

namespace BTreePage

theorem prefixBytes_all (p : BTreePage) : p.prefixBytes p.keys.length = p.kvs.flatten := by
  rw [prefixBytes, List.take_of_length_le]
  rw [kvs, List.length_zipWith]
  exact Nat.min_le_left ..

/-- A slot takes four bytes, so a page holds fewer than 1018 of them. -/
theorem FitsPage.length_lt {p : BTreePage} (h : p.FitsPage) : p.keys.length < 1018 := by
  unfold FitsPage at h; omega

/-- **The round trip.** Whatever the buffer held, a node that fits is written without an access
outside of the page, and decoding gives it back without the values beyond its last key. -/
theorem decode_serializeInto {p : BTreePage} (hp : p.Paired) (hfit : p.FitsPage) (buf : Page) :
    ∃ data, p.serializeInto buf = .ok data ∧ decode data = .ok p.trim := by
  have hl := hfit.length_lt
  obtain ⟨hpos, hv⟩ := hp
  unfold FitsPage at hfit
  have hlen := prefixBytes_length_eq hv
  obtain ⟨data', hrun, hdata⟩ := serializeLoop_spec hv p.keys.length buf 26 4096 (Nat.le_refl _)
    (Nat.le_refl _) (by omega)
  rw [hlen] at hrun hdata
  simp only [Nat.sub_self, Block.slice_zero, List.append_nil, prefixBytes_all] at hdata
  refine ⟨_, by rw [serializeInto, INDEX_PAGE_HEADER_SIZE, hrun]; rfl, ?_⟩
  obtain ⟨hend, hnext, hright, hflags, hleaf⟩ :=
    header_slices data' p (26 + 4 * p.keys.length) (4096 - p.pairsSize)
  set page := data'.blit 0 (p.headerBytes (26 + 4 * p.keys.length) (4096 - p.pairsSize))
  have hcur : (UInt16.ofNat (4096 - p.pairsSize)).toNat = 4096 - p.pairsSize := by simp; omega
  -- the pairs lie above the header
  have hpairs : page.slice (4096 - p.pairsSize) (4096 - (4096 - p.pairsSize)) = p.kvs.flatten := by
    rw [Block.slice_blit_disjoint data' (by simp [headerBytes]; omega), hdata]
  rcases p with ⟨keys, flags, rm, next, rids | pids⟩
  · have hkvs := decodePairs_spec page 8 8 decodeRid encodeRid
      (fun v => by simp [encodeRid]) decodeRid_encodeRid (keys.zip rids) 4097
      (4096 - pairsSize _) (fun kv hkv => hpos _ (List.of_mem_zip hkv).1)
      (by simp only [List.length_zip]; simp only at hl; omega) (by omega)
      (by rw [hpairs]; simp [kvs, valBufs, List.zipWith_map_right, List.map_zip_eq_zipWith]; rfl)
    simp only [isLeaf, if_true] at hleaf
    simp only [decode, hend, hnext, hright, hflags, hleaf, hcur, hkvs, bind, Except.bind]
    simp [trim, map_snd_zip_take, List.map_fst_zip hv]
  · have hkvs := decodePairs_spec page 4 0 decodeUint32 encodeUint32
      (fun v => by simp) decodeUint32_encodeUint32
      (keys.zip pids) 4097 (4096 - pairsSize _) (fun kv hkv => hpos _ (List.of_mem_zip hkv).1)
      (by simp only [List.length_zip]; simp only at hl; omega) (by omega)
      (by rw [hpairs]; simp [kvs, valBufs, List.zipWith_map_right, List.map_zip_eq_zipWith]; rfl)
    simp only [isLeaf, Bool.false_eq_true, if_false] at hleaf
    simp only [decode, hend, hnext, hright, hflags, hleaf, hcur, hkvs, bind, Except.bind]
    simp [trim, map_snd_zip_take, List.map_fst_zip hv]

theorem trim_eq_self {p : BTreePage} (h : p.valCount = p.keys.length) : p.trim = p := by
  rcases p with ⟨keys, flags, rm, next, rids | pids⟩ <;> simp only [valCount] at h <;>
    simp [trim, ← h]

/-- A node with fewer values than keys cannot be serialized. -/
theorem serializeInto_short {p : BTreePage} (h : p.valCount < p.keys.length) (buf : Page) :
    ∃ e, p.serializeInto buf = .error e := by
  obtain ⟨n, hn⟩ : ∃ n, p.keys.length = n + 1 := ⟨p.keys.length - 1, by omega⟩
  obtain ⟨k, hk⟩ : ∃ k, p.keys[n]? = some k := ⟨_, List.getElem?_eq_getElem (by omega)⟩
  have hval : ∃ e, p.valBuf n = .error e := by
    rcases p with ⟨keys, flags, rm, next, rids | pids⟩ <;> simp only [valCount] at h hn
    · have : rids[n]? = none := List.getElem?_eq_none (by omega)
      exact ⟨.outOfRange, by simp [valBuf, vecAt, this, Except.map]⟩
    · have : pids[n]? = none := List.getElem?_eq_none (by omega)
      exact ⟨.outOfRange, by simp [valBuf, vecAt, this, Except.map]⟩
  obtain ⟨e, he⟩ := hval
  exact ⟨e, by simp only [serializeInto, hn, serializeLoop, vecAt_eq hk, he, bind, Except.bind]⟩

/-- What every decoded node is like. -/
theorem decode_paired {data : Page} {p : BTreePage} (h : decode data = .ok p) :
    p.Paired ∧ p.valCount = p.keys.length ∧ p.keys.length < 4097 := by
  rw [decode] at h
  split at h
  · obtain ⟨kvs, hd, hp⟩ := except_bind_eq_ok h
    cases hp
    obtain ⟨hl, hk⟩ := decodePairs_keys _ _ _ hd
    refine ⟨⟨?_, by simp [valCount]⟩, by simp [valCount], by simpa using hl⟩
    simpa using fun k r hkr => hk (k, r) hkr
  · obtain ⟨kvs, hd, hp⟩ := except_bind_eq_ok h
    cases hp
    obtain ⟨hl, hk⟩ := decodePairs_keys _ _ _ hd
    refine ⟨⟨?_, by simp [valCount]⟩, by simp [valCount], by simpa using hl⟩
    simpa using fun k r hkr => hk (k, r) hkr

/-- A node with as many values as keys that fits in a page is decoded to itself, whatever the
uninitialised buffer held. -/
theorem serialize_roundTrip (p : BTreePage) (buf : Page) (hkeys : ∀ k ∈ p.keys, 1 ≤ k.length)
    (hvals : p.valCount = p.keys.length) (hfit : 26 + 4 * p.keys.length + p.pairsSize ≤ 4096) :
    ∃ data, p.serializeInto buf = .ok data ∧ decode data = .ok p := by
  obtain ⟨data, hser, hdec⟩ :=
    decode_serializeInto ⟨hkeys, Nat.le_of_eq hvals.symm⟩ hfit buf
  exact ⟨data, hser, by rw [hdec, trim_eq_self hvals]⟩

/-- The leaf of the test `CreateIndex_SerializeAndDeserializeNode`. -/
def testLeaf : BTreePage where
  keys := [⟨[107, 101, 121], by decide⟩, ⟨[107, 101, 121, 49], by decide⟩,
    ⟨[107, 101, 121, 56, 50], by decide⟩]
  flags := 0
  rightmostPtr := 0
  next := 256
  values := .records [⟨1, 3⟩, ⟨2, 4⟩, ⟨3, 5⟩]

theorem serialize_roundTrip_testLeaf :
    ∃ data, testLeaf.serializeInto Block.zero = .ok data ∧ decode data = .ok testLeaf :=
  serialize_roundTrip testLeaf Block.zero (by decide) (by decide) (by decide)

end BTreePage

end SomeDB
