import SomeDB.Disk.ClockReplacer

/-!
# The sweep of `evict`

`Listed`: a frame of the list with its node and its reference bit. `sweepOrder r fs`: the frames in the order in
which `evict` comes to them. It clears the bits of the frames at the beginning of this order that have them set
and takes out the first frame that does not, or it comes round and clears all bits.

The end of the sweep depends on the bucket of the frame that is taken out: `hash_remove` frees the key of the
element behind it, or, for a linked cell, the very string that `circular_list_remove` then gets. `evict` chooses
a frame and returns it exactly as the bucket allows.
-/

namespace SomeDB

open Lib

/-- A frame of the list: its node, its number and its reference bit. -/
structure Listed where
  id : Nat
  frame : UInt32
  ref : Bool
  deriving DecidableEq

namespace Listed

/-- The string that is both the value of the node and the key in the table. -/
def key (x : Listed) : CString := sprintfD x.frame

def node (x : Listed) : ListNode := ⟨x.id, x.key⟩

/-- What the table has for the frame, with the reference bit `bit`. -/
def element (x : Listed) (bit : Bool) : HashEl FrameInfo := ⟨x.key, ⟨bit, x.id⟩, false⟩

end Listed

/-- The first element of the bucket has the key. -/
def FirstInBucket (key : CString) (ht : HashTable FrameInfo) : Prop :=
  ∃ el ∈ (bucketAt key ht).bind (·.head), el.key = key

instance (key : CString) (ht : HashTable FrameInfo) : Decidable (FirstInBucket key ht) :=
  inferInstanceAs (Decidable (∃ el ∈ _, _))

/-- The element behind the first one of the bucket. -/
def behind (key : CString) (ht : HashTable FrameInfo) : Option (HashEl FrameInfo) :=
  (bucketAt key ht).bind fun b => b.next.head?

/-- The element with the key, whether it may be read or not. -/
def stored (key : CString) (ht : HashTable FrameInfo) : Option (HashEl FrameInfo) :=
  (bucketAt key ht).bind fun b => b.chain.find? fun el => el.key = key

/-- The list holds the distinct frames `fs`, each with a reference bit in the table, and the hand is null or on one
of their nodes. The strings of the nodes may be read, and each is the key of the frame's own element only. -/
structure Sweepable (r : ClockReplacer) (fs : List Listed) : Prop where
  nodes : r.frames.nodes = fs.map Listed.node
  size : r.frames.size = fs.length
  ne_nil : fs ≠ []
  ids : (fs.map (·.id)).Nodup
  frames : (fs.map (·.frame)).Nodup
  bits : ∀ x ∈ fs, found r.frameTable x.key = .ok (some (x.element x.ref))
  hand : ∀ id ∈ r.hand, id ∈ fs.map (·.id)
  live : ∀ x ∈ fs, x.id ∉ r.dangling
  owners : ∀ b ∈ r.frameTable.arr.zipIdx, ∀ el ∈ b.1.chain, ∀ x ∈ fs,
    el.data.owner = x.id → el.key = x.key ∧ hash x.key r.frameTable = .ok b.2

/-- The frames in circular order from the hand, or from the head of the list if it is null. -/
def sweepOrder (r : ClockReplacer) (fs : List Listed) : List Listed :=
  match r.hand with
  | none => fs
  | some id => fs.dropWhile (fun x => x.id ≠ id) ++ fs.takeWhile (fun x => x.id ≠ id)

/-- The element of the frame has the reference bit `bit`, and it may be read if the frame is in the list. -/
def BitIs (r : ClockReplacer) (x : Listed) (bit : Bool) : Prop :=
  ∃ el, stored x.key r.frameTable = some el ∧ el.data = ⟨bit, x.id⟩ ∧ (x.node ∈ r.frames.nodes → el.freed = false)

/-- What the second-chance rule asks of `evict`. If there is a frame without its bit, the first one in circular order
is returned, and the bits of the frames passed over are cleared and no others. If not, all bits are cleared, the
list is left and the hand comes back, so that the next `evict` returns the frame where the sweep started. -/
def SecondChance (r : ClockReplacer) (fs : List Listed) : Prop :=
  match (sweepOrder r fs).find? (fun x => !x.ref) with
  | some x => ∃ r', evict r = (.ok (some x.frame.toNat), r') ∧ ∀ y ∈ fs, y ≠ x →
      BitIs r' y (y.ref && y ∉ (sweepOrder r fs).takeWhile (·.ref))
  | none => ∃ r', evict r = (.ok none, r') ∧ (∀ x ∈ fs, BitIs r' x false) ∧ r'.frames = r.frames ∧
      r'.hand = (sweepOrder r fs).head?.map (·.id) ∧
      ∃ r'', evict r' = (.ok ((sweepOrder r fs).head?.map (·.frame.toNat)), r'')

/-- The frames whose strings are read or freed when the frame `x` is taken out of the list. -/
def touched (fs : List Listed) (x : Listed) : List Listed := x :: if fs.head? = some x then [] else fs.take 2

/-- The frame can be taken out. It is the first of its bucket, and the key of the element behind it was not freed
before and is not the string of one of the frames `ys`. -/
def Takable (x : Listed) (ys : List Listed) (ht : HashTable FrameInfo) : Prop :=
  FirstInBucket x.key ht ∧ ∀ el ∈ behind x.key ht, el.freed = false ∧ ∀ y ∈ ys, el.data.owner ≠ y.id

instance (x : Listed) (ys : List Listed) (ht : HashTable FrameInfo) : Decidable (Takable x ys ht) :=
  inferInstanceAs (Decidable (_ ∧ _))

/-- When `evict` is a second-chance selection. -/
def SweepSafe (r : ClockReplacer) (fs : List Listed) : Prop :=
  match (sweepOrder r fs).find? (fun x => !x.ref) with
  | some x => Takable x fs r.frameTable
  | none => ∀ x ∈ (sweepOrder r fs).head?, Takable x (touched fs x) r.frameTable

instance (r : ClockReplacer) (fs : List Listed) : Decidable (SweepSafe r fs) := by
  unfold SweepSafe
  split <;> infer_instance

/-! ## Insertions that change only a bit -/

/-- An element without its reference bit. -/
def outline (el : HashEl FrameInfo) : CString × Nat × Bool := (el.key, el.data.owner, el.freed)

/-- The table without the reference bits. -/
def skeleton (ht : HashTable FrameInfo) : UInt16 × List (Option (CString × Nat × Bool) × List (CString × Nat × Bool)) :=
  (ht.size, ht.arr.map fun b => (b.head.map outline, b.next.map outline))

section Table

variable {ht ht' : HashTable FrameInfo} {key k : CString} {i : Nat} {b b' : Bucket FrameInfo} {el : HashEl FrameInfo}
  {els : List (HashEl FrameInfo)} {d : FrameInfo}

theorem bucketAt_eq (hi : hash key ht = .ok i) : bucketAt key ht = ht.arr[i]? := by
  unfold bucketAt
  rw [hi]

theorem bucketAt_of_error {e : Fault} (h : hash key ht = .error e) : bucketAt key ht = none := by
  unfold bucketAt
  rw [h]

/-- The walk that finds an element comes to it through elements with other keys that may be read. -/
theorem findNext_eq_some (h : findNext true key els = .ok (some el)) : ∃ as bs, els = as ++ el :: bs ∧
    el.key = key ∧ el.freed = false ∧ ∀ x ∈ as, x.keyIs true key = .ok false := by
  induction els with
  | nil => cases h
  | cons temp rest ih =>
    rw [findNext] at h
    obtain ⟨eq, heq, h₁⟩ := except_bind_eq_ok h
    obtain ⟨hfreed, hiff⟩ := keyIs_eq_ok heq
    cases eq with
    | true =>
      cases h₁
      exact ⟨[], rest, rfl, hiff.mp rfl, hfreed, fun x hx => absurd hx List.not_mem_nil⟩
    | false =>
      obtain ⟨as, bs, rfl, hkey, hel, has⟩ := ih h₁
      refine ⟨temp :: as, bs, rfl, hkey, hel, fun x hx => ?_⟩
      rcases List.mem_cons.mp hx with rfl | hx
      · exact heq
      · exact has x hx

/-- Elements with other keys do not matter for what is found. -/
theorem find_of_keyIs {as bs : List (HashEl FrameInfo)} (has : ∀ x ∈ as, x.keyIs true key = .ok false)
    (hkey : el.key = key) : (as ++ el :: bs).find? (fun x => x.key = key) = some el := by
  have hnone : as.find? (fun x => x.key = key) = none := by
    rw [List.find?_eq_none]
    intro x hx
    simpa using fun he => Bool.false_ne_true ((keyIs_eq_ok (has x hx)).2.mpr he)
  rw [List.find?_append, hnone, Option.none_or, List.find?_cons_of_pos (by simpa using hkey)]

/-- The element that is found gets new data in its place. -/
theorem insertNext_of_walk {as bs : List (HashEl FrameInfo)} (has : ∀ x ∈ as, x.keyIs true key = .ok false)
    (hkey : el.key = key) (hfreed : el.freed = false) :
    insertNext true ⟨key, d, false⟩ (as ++ el :: bs) = .ok (as ++ ⟨key, d, false⟩ :: bs) := by
  induction as with
  | nil =>
    rw [List.nil_append, insertNext, keyIs_self hkey hfreed]
    rfl
  | cons x as ih =>
    rw [List.cons_append, insertNext, has x (List.mem_cons_self ..), ih fun y hy => has y (List.mem_cons_of_mem _ hy)]
    rfl

theorem removeNext_of_walk {as bs : List (HashEl FrameInfo)} (has : ∀ x ∈ as, x.keyIs true key = .ok false)
    (hkey : el.key = key) (hfreed : el.freed = false) :
    removeNext true key (as ++ el :: bs) = .ok (some (as ++ bs)) := by
  induction as with
  | nil =>
    rw [List.nil_append, removeNext, keyIs_self hkey hfreed]
    rfl
  | cons x as ih =>
    rw [List.cons_append, removeNext, has x (List.mem_cons_self ..), ih fun y hy => has y (List.mem_cons_of_mem _ hy)]
    rfl

/-- What `hash_find` finds is the first element of the bucket, or a linked cell behind elements with other keys. -/
theorem found_eq_some (h : found ht key = .ok (some el)) : ∃ i head next, hash key ht = .ok i ∧
    ht.arr[i]? = some ⟨some head, next⟩ ∧ el.key = key ∧ el.freed = false ∧
    (head = el ∨ head.keyIs true key = .ok false ∧
      ∃ as bs, next = as ++ el :: bs ∧ ∀ x ∈ as, x.keyIs true key = .ok false) := by
  have hrun : hashFind true key ht = (.ok (some el), ht) := Prod.ext h (hashFind_state true key ht)
  unfold hashFind at hrun
  obtain ⟨⟨i, b⟩, ht₁, hbucket, h₁⟩ := Prog.bind_eq_ok hrun
  obtain ⟨hi, hb, rfl⟩ := bucketOf_eq_ok hbucket
  obtain ⟨head, next⟩ := b
  cases head with
  | none => cases h₁
  | some head =>
    obtain ⟨as, bs, hchain, hkey, hfreed, has⟩ := findNext_eq_some (Prod.mk.inj h₁).1
    refine ⟨i, head, next, hi, hb, hkey, hfreed, ?_⟩
    cases as with
    | nil => exact .inl (List.cons.inj hchain).1
    | cons x as =>
      obtain ⟨rfl, rfl⟩ := List.cons.inj hchain
      exact .inr ⟨has head (List.mem_cons_self ..), as, bs, rfl, fun y hy => has y (List.mem_cons_of_mem _ hy)⟩

theorem stored_of_found (h : found ht key = .ok (some el)) : stored key ht = some el := by
  obtain ⟨i, head, next, hi, hb, hkey, -, hplace⟩ := found_eq_some h
  unfold stored Bucket.chain
  rw [bucketAt_eq hi, hb, Option.bind_some]
  rcases hplace with rfl | ⟨hhead, as, bs, rfl, has⟩
  · exact List.find?_cons_of_pos (by simpa using hkey)
  · show List.find? _ (head :: as ++ _) = _
    exact find_of_keyIs (List.forall_mem_cons.mpr ⟨hhead, has⟩) hkey

theorem skeleton_set (hb : ht.arr[i]? = some b) (hhead : b'.head.map outline = b.head.map outline)
    (hnext : b'.next.map outline = b.next.map outline) :
    skeleton { ht with arr := ht.arr.set i b' } = skeleton ht := by
  obtain ⟨hlt, rfl⟩ := List.getElem?_eq_some_iff.mp hb
  unfold skeleton
  refine congrArg (Prod.mk ht.size) ?_
  rw [List.map_set, hhead, hnext]
  have hself := congrArg (List.map fun b : Bucket FrameInfo => (b.head.map outline, b.next.map outline))
    (List.set_getElem_self hlt)
  rwa [List.map_set] at hself

/-- An insertion under a key that is found leaves everything but the data. -/
theorem hashInsert_of_found (h : found ht key = .ok (some el)) (howner : d.owner = el.data.owner) :
    ∃ ht', hashInsert true key d ht = (.ok (), ht') ∧ skeleton ht' = skeleton ht := by
  obtain ⟨i, head, next, hi, hb, hkey, hfreed, hplace⟩ := found_eq_some h
  have hout : outline ⟨key, d, false⟩ = outline el := by
    unfold outline
    rw [hkey, howner, hfreed]
  unfold hashInsert
  rw [Prog.bind_ok (bucketOf_eq hi hb)]
  simp only
  rcases hplace with rfl | ⟨hhead, as, bs, rfl, has⟩
  · rw [keyIs_self hkey hfreed, Prog.lift_ok_bind, if_pos rfl]
    exact ⟨_, rfl, skeleton_set hb (congrArg some hout) rfl⟩
  · rw [hhead, Prog.lift_ok_bind, if_neg Bool.false_ne_true, insertNext_of_walk has hkey hfreed]
    refine ⟨_, rfl, skeleton_set hb rfl ?_⟩
    simp only [List.map_append, List.map_cons, hout]

theorem hash_of_skeleton (h : skeleton ht' = skeleton ht) (k : CString) : hash k ht' = hash k ht := by
  unfold hash
  rw [(Prod.mk.inj h).1]

theorem bucketAt_of_skeleton (h : skeleton ht' = skeleton ht) (k : CString) :
    (bucketAt k ht').map (fun b => (b.head.map outline, b.next.map outline)) =
      (bucketAt k ht).map fun b => (b.head.map outline, b.next.map outline) := by
  cases hi : hash k ht with
  | error e => rw [bucketAt_of_error hi, bucketAt_of_error ((hash_of_skeleton h k).trans hi)]
  | ok i =>
    rw [bucketAt_eq hi, bucketAt_eq ((hash_of_skeleton h k).trans hi), ← List.getElem?_map, ← List.getElem?_map]
    exact congrArg (·[i]?) (Prod.mk.inj h).2

theorem behind_of_skeleton (h : skeleton ht' = skeleton ht) (k : CString) :
    (behind k ht').map outline = (behind k ht).map outline := by
  have hbehind : ∀ ht, (behind k ht).map outline =
      ((bucketAt k ht).map fun b => (b.head.map outline, b.next.map outline)).bind fun b => b.2.head? := by
    intro ht
    unfold behind
    cases bucketAt k ht with
    | none => rfl
    | some b => exact List.head?_map.symm
  rw [hbehind, hbehind, bucketAt_of_skeleton h k]

theorem firstInBucket_of_skeleton (h : skeleton ht' = skeleton ht) (k : CString) :
    FirstInBucket k ht' ↔ FirstInBucket k ht := by
  have hfirst : ∀ ht, FirstInBucket k ht ↔ ∃ o ∈ ((bucketAt k ht).map fun b =>
      (b.head.map outline, b.next.map outline)).bind fun b => b.1, o.1 = k := by
    intro ht
    unfold FirstInBucket
    cases bucketAt k ht with
    | none => simp
    | some b =>
      cases hhead : b.head with
      | none => simp [hhead]
      | some el => simp [hhead, outline]
  rw [hfirst, hfirst, bucketAt_of_skeleton h k]

/-- Whether a frame can be taken out does not depend on the reference bits. -/
theorem Takable.of_skeleton {x : Listed} {ys : List Listed} (hs : skeleton ht' = skeleton ht) (h : Takable x ys ht') :
    Takable x ys ht := by
  refine ⟨(firstInBucket_of_skeleton hs x.key).mp h.1, fun el hel => ?_⟩
  have houtline := behind_of_skeleton hs x.key
  rw [show behind x.key ht = some el from hel, Option.map_some] at houtline
  obtain ⟨el', hel', he⟩ := Option.map_eq_some_iff.mp houtline
  obtain ⟨-, howner, hfreed⟩ : el'.key = el.key ∧ el'.data.owner = el.data.owner ∧ el'.freed = el.freed := by
    simpa [outline] using he
  obtain ⟨hlive, hnot⟩ := h.2 el' hel'
  exact ⟨hfreed ▸ hlive, fun y hy => howner ▸ hnot y hy⟩

theorem Takable.mono {x : Listed} {ys zs : List Listed} (h : Takable x ys ht) (hsub : ∀ z ∈ zs, z ∈ ys) :
    Takable x zs ht :=
  ⟨h.1, fun el hel => ⟨(h.2 el hel).1, fun z hz => (h.2 el hel).2 z (hsub z hz)⟩⟩

/-! ## The removal of a frame from the table -/

/-- What a removal leaves under another key: the element behind the first one is freed. -/
theorem stored_removeHead (hi : hash key ht = .ok i) (hb : ht.arr[i]? = some ⟨some el, els⟩) (hkey : el.key = key)
    (hk : k ≠ key) : stored k { ht with arr := ht.arr.set i (removeHead true ⟨some el, els⟩) } =
      if hash k ht = .ok i ∧ els.head?.any (fun x => x.key = k) then els.head?.map fun x => { x with freed := true }
      else stored k ht := by
  have hlt := (List.getElem?_eq_some_iff.mp hb).1
  unfold stored
  cases hj : hash k ht with
  | error e =>
    have hj' : hash k ({ ht with arr := ht.arr.set i (removeHead true ⟨some el, els⟩) } : HashTable FrameInfo) =
        .error e := hj
    rw [if_neg (by simp), bucketAt_of_error hj, bucketAt_of_error hj']
  | ok j =>
    have hj' : hash k ({ ht with arr := ht.arr.set i (removeHead true ⟨some el, els⟩) } : HashTable FrameInfo) =
        .ok j :=
      hj
    rw [bucketAt_eq hj', bucketAt_eq hj]
    by_cases hij : j = i
    · subst hij
      rw [List.getElem?_set_self hlt, hb, Option.bind_some, Option.bind_some]
      have hne : ¬ el.key = k := fun he => hk (he.symm.trans hkey)
      unfold Bucket.chain
      cases els with
      | nil => simp [removeHead, hne]
      | cons x rest => by_cases hx : x.key = k <;> simp [removeHead, hne, hx]
    · rw [List.getElem?_set_ne (Ne.symm hij), if_neg]
      simp [hij]

theorem stored_freeKey (id : Nat) : stored k (freeKey id ht) =
    (stored k ht).map fun el => { el with freed := el.freed || el.data.owner = id } := by
  unfold stored
  cases hj : hash k ht with
  | error e =>
    have hj' : hash k (freeKey id ht) = .error e := hj
    rw [bucketAt_of_error hj, bucketAt_of_error hj']
    rfl
  | ok j =>
    have hj' : hash k (freeKey id ht) = .ok j := hj
    rw [bucketAt_eq hj', bucketAt_eq hj]
    unfold freeKey
    simp only [List.getElem?_map]
    cases ht.arr[j]? with
    | none => rfl
    | some b =>
      unfold Bucket.chain
      obtain ⟨head, next⟩ := b
      have hchain : (head.map fun el => { el with freed := el.freed || el.data.owner = id }).toList =
          head.toList.map fun el => { el with freed := el.freed || el.data.owner = id } := by cases head <;> rfl
      simp only [Option.map_some, Option.bind_some]
      rw [hchain, ← List.map_append, List.find?_map]
      rfl

end Table

/-! ## The removal of a frame from the list -/

/-- `atoi` reads back what `"%d"` wrote of a `frame_id_t`, also where that is a negative `int`. -/
theorem frameIdOf_sprintfD (f : UInt32) : frameIdOf (sprintfD f) = f.toNat := by
  have hf := f.toNat_lt
  by_cases hlt : f.toNat < 2147483648
  · rw [sprintfD_of_lt hlt, frameIdOf_sprintfU hlt]
  · unfold frameIdOf
    rw [atoi_sprintfD_of_le hlt, UInt32.ofInt, UInt32.toNat_ofNat']
    omega

section Removal

variable {r r' : ClockReplacer} {fs : List Listed} {x y : Listed} {ys : List Listed}

theorem Sweepable.key_inj (h : Sweepable r fs) (hx : x ∈ fs) (hy : y ∈ fs) (hkey : x.key = y.key) : x = y :=
  List.inj_on_of_nodup_map h.frames hx hy (sprintfD_inj hkey)

theorem Sweepable.id_inj (h : Sweepable r fs) (hx : x ∈ fs) (hy : y ∈ fs) (hid : x.id = y.id) : x = y :=
  List.inj_on_of_nodup_map h.ids hx hy hid

theorem touched_sub (hx : x ∈ fs) : ∀ y ∈ touched fs x, y ∈ fs := by
  intro y hy
  unfold touched at hy
  rcases List.mem_cons.mp hy with rfl | hy
  · exact hx
  · split at hy
    · cases hy
    · exact List.mem_of_mem_take hy

/-- `circular_list_remove` takes out the first frame or, if that is another one, the second. -/
theorem Sweepable.circularListRemove (h : Sweepable r fs) (hx : x ∈ fs) : ∃ z ∈ touched fs x,
    SomeDB.circularListRemove x.key r.frames = (.ok (some z.id), { r.frames with
      nodes := (fs.erase z).map Listed.node, size := r.frames.size - 1 }) ∧
      ∀ y ∈ touched fs x, y = x ∨ fs.head? = some y ∨ y = z := by
  unfold SomeDB.circularListRemove touched
  rw [h.nodes]
  rcases fs with _ | ⟨head, _ | ⟨curr, rest⟩⟩
  · cases hx
  · obtain rfl := List.mem_singleton.mp hx
    exact ⟨x, by simp, by simp [Listed.node], by simp⟩
  · by_cases hhead : head = x
    · subst hhead
      exact ⟨head, by simp, by simp [Listed.node], by simp⟩
    · have hkey : ¬ head.key = x.key := fun he => hhead (h.key_inj (List.mem_cons_self ..) hx he)
      have hcurr : ¬ head = curr := by
        have := h.ids
        rintro rfl
        simp at this
      refine ⟨curr, by simp [hhead], ?_, by simp [hhead]⟩
      simp [hkey, Listed.node, List.erase_cons_tail (show (head == curr) ≠ true by simpa using hcurr)]

theorem head_mem_touched (h : fs.head? = some y) : y ∈ touched fs x := by
  unfold touched
  by_cases hx : fs.head? = some x
  · obtain rfl := Option.some.inj (h.symm.trans hx)
    exact List.mem_cons_self ..
  · cases fs with
    | nil => cases h
    | cons head rest =>
      cases h
      rw [if_neg hx]
      simp

theorem Sweepable.removeFrame_ok (h : Sweepable r fs) (hframes : r'.frames = r.frames) (hx : x ∈ fs)
    (hlive : ∀ y ∈ touched fs x, y.id ∉ r'.dangling) : ∃ z ∈ touched fs x, removeFrame x.key r' = (.ok (), { r' with
      frames := { r.frames with nodes := (fs.erase z).map Listed.node, size := r.frames.size - 1 }
      frameTable := freeKey z.id r'.frameTable }) := by
  obtain ⟨z, hz, hremove, -⟩ := h.circularListRemove hx
  rw [← hframes] at hremove
  refine ⟨z, hz, ?_⟩
  have hhead : (r'.frames.nodes.head?.any fun head => head.id ∈ r'.dangling) = false := by
    rw [hframes, h.nodes, List.head?_map]
    cases hfs : fs.head? with
    | none => rfl
    | some y => simpa [Listed.node] using hlive y (head_mem_touched hfs)
  unfold removeFrame
  rw [Prog.get_bind, hhead, if_neg Bool.false_ne_true, Prog.bind_ok (onFrames_ok hremove)]
  simp only [if_neg (hlive z hz)]
  rw [← hframes]
  rfl

theorem Sweepable.removeFrame_eq_ok (h : Sweepable r fs) {r₁ : ClockReplacer} {u : Unit}
    (hframes : r'.frames = r.frames) (hx : x ∈ fs) (hrun : removeFrame x.key r' = (.ok u, r₁)) :
    ∀ y ∈ touched fs x, y ≠ x → y.id ∉ r'.dangling := by
  obtain ⟨z, hz, hremove, hall⟩ := h.circularListRemove hx
  rw [← hframes] at hremove
  intro y hy hne hdangling
  rw [removeFrame, Prog.get_bind] at hrun
  split at hrun
  · cases hrun
  · next hhead =>
    rcases hall y hy with rfl | hfirst | rfl
    · exact hne rfl
    · rw [hframes, h.nodes, List.head?_map, hfirst] at hhead
      exact hhead (by simpa [Listed.node] using hdangling)
    · rw [Prog.bind_ok (onFrames_ok hremove)] at hrun
      simp only [if_pos hdangling] at hrun
      cases hrun

/-- The end of `hash_remove` for the first element of a bucket. -/
theorem removeKey_of_first {key : CString} {i : Nat} {el : HashEl FrameInfo} {els : List (HashEl FrameInfo)}
    (hi : hash key r.frameTable = .ok i) (hb : r.frameTable.arr[i]? = some ⟨some el, els⟩) (hkey : el.key = key)
    (hfreed : el.freed = false) {ht : HashTable FrameInfo}
    (hht : ht = { r.frameTable with arr := r.frameTable.arr.set i (removeHead true ⟨some el, els⟩) }) :
    removeKey key r =
      match els.head? with
      | none => (.ok (), { r with frameTable := ht })
      | some x =>
        if x.freed then (.error .freed, { r with frameTable := ht })
        else (.ok (), { r with frameTable := ht, dangling := x.data.owner :: r.dangling }) := by
  have hfreedEl : freedEl key r.frameTable .head = els.head? := by
    unfold freedEl
    rw [bucketAt_eq hi, hb, Option.bind_some]
  have hhead : ∀ head, some el = some head → head.keyIs true key = .ok true := by
    rintro head ⟨⟩
    exact keyIs_self hkey hfreed
  unfold removeKey
  rw [Prog.get_bind, Prog.bind_ok (onFrameTable_ok (hashRemove_of_head hi hb hhead)), hfreedEl, ← hht]
  cases els.head? with
  | none => rfl
  | some x =>
    by_cases hx : x.freed = true
    · simp only [freeString, if_pos hx]
      rfl
    · simp only [freeString, if_neg hx]
      rfl

end Removal

/-! ## The end of a sweep -/

/-- The state of a sweep that has passed over the frames `done`. -/
structure Swept (r₀ : ClockReplacer) (fs done : List Listed) (r : ClockReplacer) : Prop where
  frames : r.frames = r₀.frames
  dangling : r.dangling = r₀.dangling
  skeleton : skeleton r.frameTable = skeleton r₀.frameTable
  bits : ∀ y ∈ fs, found r.frameTable y.key = .ok (some (y.element (y.ref && y ∉ done)))

section Sweep

variable {r₀ r r' : ClockReplacer} {fs done : List Listed} {x y : Listed} {f : Nat}

/-- The bucket of a frame that is the first one there. -/
theorem Swept.bucket_of_first (h : Swept r₀ fs done r) (hx : x ∈ fs) (hfirst : FirstInBucket x.key r.frameTable) :
    ∃ i els, hash x.key r.frameTable = .ok i ∧
      r.frameTable.arr[i]? = some ⟨some (x.element (x.ref && x ∉ done)), els⟩ ∧
      behind x.key r.frameTable = els.head? := by
  obtain ⟨i, head, next, hi, hb, -, -, hplace⟩ := found_eq_some (h.bits x hx)
  have hhead : head = x.element (x.ref && x ∉ done) := by
    rcases hplace with he | ⟨hne, -⟩
    · exact he
    · obtain ⟨el, hel, hkey⟩ := hfirst
      rw [bucketAt_eq hi, hb] at hel
      obtain rfl : head = el := Option.some.inj hel
      exact absurd ((keyIs_eq_ok hne).2.mpr hkey) Bool.false_ne_true
  subst hhead
  refine ⟨i, next, hi, hb, ?_⟩
  unfold behind
  rw [bucketAt_eq hi, hb]
  rfl

/-- What is left of the table when the frame has been taken out: the element behind it has come to its place, and its
key was freed, as was the key that the list node `z` owned. -/
def tableWithout (key : CString) (z : Nat) (ht ht' : HashTable FrameInfo) : Prop :=
  ∃ i el els, hash key ht = .ok i ∧ ht.arr[i]? = some ⟨some el, els⟩ ∧ el.key = key ∧ behind key ht = els.head? ∧
    ht' = freeKey z { ht with arr := ht.arr.set i (removeHead true ⟨some el, els⟩) }

theorem Swept.takeFrameOut_ok (h : Swept r₀ fs done r) (h₀ : Sweepable r₀ fs) (hx : x ∈ fs)
    (htakable : Takable x (touched fs x) r.frameTable) : ∃ z ∈ touched fs x, ∃ r',
      takeFrameOut x.id x.key r = (.ok x.frame.toNat, r') ∧ r'.frames.nodes = (fs.erase z).map Listed.node ∧
      tableWithout x.key z.id r.frameTable r'.frameTable := by
  obtain ⟨i, els, hi, hb, hbehind⟩ := h.bucket_of_first hx htakable.1
  have hkey := removeKey_of_first hi hb rfl rfl rfl
  -- no string that is read or freed is dangling
  obtain ⟨r₁, hremove, hframes, htable, hlive⟩ : ∃ r₁, removeKey x.key r = (.ok (), r₁) ∧ r₁.frames = r₀.frames ∧
      r₁.frameTable = { r.frameTable with
        arr := r.frameTable.arr.set i (removeHead true ⟨some (x.element (x.ref && x ∉ done)), els⟩) } ∧
      ∀ y ∈ touched fs x, y.id ∉ r₁.dangling := by
    have hold : ∀ y ∈ touched fs x, y.id ∉ r.dangling := fun y hy => by
      rw [h.dangling]
      exact h₀.live y (touched_sub hx y hy)
    cases hels : els.head? with
    | none =>
      rw [hels] at hkey
      exact ⟨_, hkey, h.frames, rfl, hold⟩
    | some el =>
      obtain ⟨hfreed, hnot⟩ := htakable.2 el (hbehind.trans hels)
      rw [hels] at hkey
      simp only [hfreed, Bool.false_eq_true, if_false] at hkey
      refine ⟨_, hkey, h.frames, rfl, fun y hy hmem => ?_⟩
      rcases List.mem_cons.mp hmem with he | hmem
      · exact hnot y hy he.symm
      · exact hold y hy hmem
  obtain ⟨z, hz, hframe⟩ := h₀.removeFrame_ok hframes hx hlive
  refine ⟨z, hz, { r₁ with
    frames := { r₀.frames with nodes := (fs.erase z).map Listed.node, size := r₀.frames.size - 1 }
    frameTable := freeKey z.id r₁.frameTable }, ?_, rfl, i, _, els, hi, hb, rfl, hbehind,
    congrArg (freeKey z.id) htable⟩
  unfold takeFrameOut
  rw [Prog.bind_ok hremove, Prog.get_bind, if_neg (hlive x (List.mem_cons_self ..)), Prog.bind_ok hframe]
  rw [show frameIdOf x.key = x.frame.toNat from frameIdOf_sprintfD x.frame]
  rfl

/-- A frame that was taken out was the first of its bucket, and the string that was freed there was no other one that
is read or freed. -/
theorem Swept.takable (h : Swept r₀ fs done r) (h₀ : Sweepable r₀ fs) (hx : x ∈ fs)
    (hrun : takeFrameOut x.id x.key r = (.ok f, r')) : Takable x (touched fs x) r.frameTable := by
  unfold takeFrameOut at hrun
  obtain ⟨_, r₁, hremove, h₁⟩ := Prog.bind_eq_ok hrun
  rw [Prog.get_bind] at h₁
  split at h₁
  · cases h₁
  next hself =>
  obtain ⟨_, r₂, hframe, -⟩ := Prog.bind_eq_ok h₁
  by_cases hfirst : FirstInBucket x.key r.frameTable
  · obtain ⟨i, els, hi, hb, hbehind⟩ := h.bucket_of_first hx hfirst
    rw [removeKey_of_first hi hb rfl rfl rfl] at hremove
    refine ⟨hfirst, fun el hel => ?_⟩
    have hels : els.head? = some el := hbehind.symm.trans hel
    simp only [hels] at hremove
    split at hremove
    · cases hremove
    next hfreed =>
    cases hremove
    refine ⟨by simpa using hfreed, fun y hy he => ?_⟩
    by_cases hyx : y = x
    · subst hyx
      exact hself (he ▸ List.mem_cons_self ..)
    · refine h₀.removeFrame_eq_ok ?_ hx hframe y hy hyx (he ▸ List.mem_cons_self ..)
      exact h.frames
  · -- the string of the node is freed with the linked cell
    obtain ⟨i, head, next, hi, hb, hkey, hfreed, hplace⟩ := found_eq_some (h.bits x hx)
    rcases hplace with rfl | ⟨hhead, as, bs, rfl, has⟩
    · refine absurd ⟨_, ?_, hkey⟩ hfirst
      rw [bucketAt_eq hi, hb]
      rfl
    · have hel : freedEl x.key r.frameTable .linked = some (x.element (x.ref && x ∉ done)) := by
        unfold freedEl
        rw [bucketAt_eq hi, hb, Option.bind_some]
        exact find_of_keyIs has hkey
      have hlinked := hashRemove_of_linked hi hb hhead (removeNext_of_walk has hkey hfreed)
      unfold removeKey at hremove
      rw [Prog.get_bind, Prog.bind_ok (onFrameTable_ok hlinked), hel] at hremove
      cases hremove
      exact absurd (List.mem_cons_self ..) hself

/-! ## The rounds of a sweep -/

variable {rest seg : List Listed}

theorem sweepOrder_split (r : ClockReplacer) (fs : List Listed) : ∃ a b, fs = a ++ b ∧ sweepOrder r fs = b ++ a := by
  unfold sweepOrder
  cases r.hand with
  | none => exact ⟨[], fs, rfl, (List.append_nil fs).symm⟩
  | some id => exact ⟨_, _, List.takeWhile_append_dropWhile.symm, rfl⟩

theorem sweepOrder_perm (r : ClockReplacer) (fs : List Listed) : (sweepOrder r fs).Perm fs := by
  obtain ⟨a, b, hfs, horder⟩ := sweepOrder_split r fs
  rw [horder]
  conv_rhs => rw [hfs]
  exact List.perm_append_comm

theorem Sweepable.nodup_order (h : Sweepable r fs) : (sweepOrder r fs).Nodup :=
  (sweepOrder_perm r fs).nodup_iff.mpr h.ids.of_map

theorem Sweepable.size_ne_zero (h : Sweepable r fs) : r.frames.size ≠ 0 := by
  rw [h.size]
  exact fun h0 => h.ne_nil (List.length_eq_zero_iff.mp h0)

theorem Sweepable.node_ids (h : Sweepable r fs) : (r.frames.nodes.map (·.id)).Nodup := by
  rw [h.nodes, List.map_map]
  exact h.ids

theorem Sweepable.nodes_split (h : Sweepable r fs) {a b : List Listed} (hfs : fs = a ++ x :: b) :
    r.frames.nodes = a.map Listed.node ++ x.node :: b.map Listed.node := by
  rw [h.nodes, hfs, List.map_append, List.map_cons]

/-- The frames from `x` on. -/
theorem Sweepable.dropWhile_eq (h : Sweepable r fs) {a b : List Listed} (hfs : fs = a ++ x :: b) :
    fs.dropWhile (fun y => y.id ≠ x.id) = x :: b := by
  have hids := h.node_ids
  rw [h.nodes_split hfs] at hids
  rw [hfs, List.dropWhile_append_of_pos, List.dropWhile_cons_of_neg (by simp)]
  intro y hy
  have hne : ¬ y.id = x.id := id_ne_of_split hids (List.mem_map_of_mem hy)
  simp [hne]

/-- The node behind a frame of the list. -/
theorem Sweepable.next_of_split (h : Sweepable r fs) {a b : List Listed} (hfs : fs = a ++ x :: b) :
    circularListNext x.id r.frames = (.ok ((b ++ a ++ [x]).head?.map (·.id)), r.frames) := by
  have hnext := circularListNext_of_split (h.nodes_split hfs) h.node_ids h.size_ne_zero
  have hback : b.map Listed.node ++ a.map Listed.node ++ [x.node] = (b ++ a ++ [x]).map Listed.node := by
    simp only [List.map_append, List.map_cons, List.map_nil]
  rw [hback, List.head?_map, Option.map_map] at hnext
  exact hnext

/-- The node behind a frame is that of the next frame in the order of the sweep. -/
theorem Sweepable.next (h : Sweepable r fs) (horder : sweepOrder r fs = done ++ x :: rest) :
    circularListNext x.id r.frames = (.ok ((rest ++ done ++ [x]).head?.map (·.id)), r.frames) := by
  obtain ⟨a, b, hfs, hab⟩ := sweepOrder_split r fs
  rw [hab] at horder
  -- the frame is in the part from the hand on, or in the part before it
  rcases List.append_eq_append_iff.mp horder with ⟨c, rfl, rfl⟩ | ⟨c, rfl, hrest⟩
  · have hnext := h.next_of_split (hfs.trans (List.append_assoc ..))
    simpa using hnext
  · cases c with
    | nil =>
      subst hrest
      have hnext := h.next_of_split (a := []) (by simpa using hfs)
      simpa using hnext
    | cons y c =>
      obtain ⟨rfl, rfl⟩ := List.cons.inj hrest
      have hnext := h.next_of_split (hfs.trans (List.append_assoc ..).symm)
      simpa using hnext

theorem Sweepable.nodes_find (h : Sweepable r fs) (hx : x ∈ fs) :
    (r.frames.nodes.find? fun node => node.id = x.id) = some x.node := by
  obtain ⟨a, b, hfs⟩ := List.append_of_mem hx
  have hids := h.node_ids
  rw [h.nodes_split hfs] at hids ⊢
  exact find_of_split hids

/-- One round of `evict`. -/
theorem Swept.round (h : Swept r₀ fs done r) (h₀ : Sweepable r₀ fs) (hx : x ∈ fs) (hhand : r.hand = some x.id)
    (n : Nat) : evictLoop (n + 1) r =
      if (x.ref && x ∉ done) = true then (do
        onFrameTable (hashInsert true x.key ⟨false, x.id⟩)
        let next ← onFrames (circularListNext x.id)
        Prog.modify fun r => { r with hand := next }
        evictLoop n : ClockM (Option Nat)) r
      else (do
        let frame ← takeFrameOut x.id x.key
        pure (some frame) : ClockM (Option Nat)) r := by
  have hnode := h₀.nodes_find hx
  rw [← h.frames] at hnode
  have hfind : hashFind true x.key r.frameTable = (.ok (some (x.element (x.ref && x ∉ done))), r.frameTable) :=
    Prod.ext (h.bits x hx) (hashFind_state true x.key r.frameTable)
  have hlive : x.id ∉ r.dangling := by
    rw [h.dangling]
    exact h₀.live x hx
  rw [evictLoop, Prog.get_bind]
  simp only [hhand, hnode, if_neg hlive]
  rw [show x.node.value = x.key from rfl, Prog.bind_ok (onFrameTable_ok hfind)]
  rw [show deref (some (x.element (x.ref && x ∉ done))) = .ok ⟨x.ref && x ∉ done, x.id⟩ from rfl, Prog.lift_ok_bind]
  split <;> rfl

/-- A frame with its bit is passed over. -/
theorem Swept.pass (h : Swept r₀ fs done r) (h₀ : Sweepable r₀ fs) (horder : sweepOrder r₀ fs = done ++ x :: rest)
    (hhand : r.hand = some x.id) (href : x.ref = true) (n : Nat) : ∃ r', evictLoop (n + 1) r = evictLoop n r' ∧
      Swept r₀ fs (done ++ [x]) r' ∧ r'.hand = (rest ++ done ++ [x]).head?.map (·.id) := by
  have hx : x ∈ fs := (sweepOrder_perm r₀ fs).mem_iff.mp (by rw [horder]; simp)
  have hdone : x ∉ done := by
    have := h₀.nodup_order
    rw [horder, List.nodup_append] at this
    exact fun hmem => this.2.2 x hmem x (List.mem_cons_self ..) rfl
  obtain ⟨ht, hinsert, hskeleton⟩ := hashInsert_of_found (d := ⟨false, x.id⟩) (h.bits x hx) rfl
  have hnext := h₀.next horder
  rw [← h.frames] at hnext
  have hnext' := onFrames_ok (r := { r with frameTable := ht }) hnext
  refine ⟨{ r with frameTable := ht, hand := (rest ++ done ++ [x]).head?.map (·.id) }, ?_,
    ⟨h.frames, h.dangling, hskeleton.trans h.skeleton, fun y hy => ?_⟩, rfl⟩
  · rw [h.round h₀ hx hhand, if_pos (by simp [href, hdone]), Prog.bind_ok (onFrameTable_ok hinsert),
      Prog.bind_ok hnext', Prog.modify_bind]
  · by_cases hyx : y = x
    · subst hyx
      rw [show found ht y.key = .ok (some ⟨y.key, ⟨false, y.id⟩, false⟩) from found_hashInsert hinsert]
      simp [Listed.element]
    · have hkey : y.key ≠ x.key := fun he => hyx (h₀.key_inj hy hx he)
      rw [show found ht y.key = found r.frameTable y.key from found_hashInsert_ne hinsert hkey, h.bits y hy]
      simp [hyx]

/-- The frames of a part of the order are passed over. -/
theorem Swept.passAll (h : Swept r₀ fs done r) (h₀ : Sweepable r₀ fs) (seg rest : List Listed)
    (horder : sweepOrder r₀ fs = done ++ (seg ++ rest)) (hhand : r.hand = (seg ++ rest ++ done).head?.map (·.id))
    (href : ∀ x ∈ seg, x.ref = true) (n : Nat) :
    ∃ r', evictLoop (seg.length + n) r = evictLoop n r' ∧ Swept r₀ fs (done ++ seg) r' ∧
      r'.hand = (rest ++ done ++ seg).head?.map (·.id) := by
  induction seg generalizing done r with
  | nil =>
    refine ⟨r, by rw [List.length_nil, Nat.zero_add], by rwa [List.append_nil], ?_⟩
    rw [hhand, List.nil_append, List.append_nil]
  | cons x seg ih =>
    obtain ⟨r₁, hrun₁, h₁, hhand₁⟩ := h.pass h₀ horder hhand (href x (List.mem_cons_self ..)) (seg.length + n)
    obtain ⟨r₂, hrun₂, h₂, hhand₂⟩ := ih h₁ (by simpa using horder) (by simpa using hhand₁)
      (fun y hy => href y (List.mem_cons_of_mem _ hy))
    refine ⟨r₂, ?_, by simpa using h₂, by simpa using hhand₂⟩
    rw [List.length_cons, show seg.length + 1 + n = seg.length + n + 1 by omega, hrun₁, hrun₂]

/-- The sweep starts at the first frame of the order. -/
theorem Sweepable.evict_eq (h : Sweepable r fs) : ∃ r₁, SomeDB.evict r = evictLoop fs.length r₁ ∧ Swept r fs [] r₁ ∧
    r₁.hand = (sweepOrder r fs).head?.map (·.id) := by
  have hswept : ∀ hand, Swept r fs [] { r with hand := hand } := fun hand =>
    ⟨rfl, rfl, rfl, fun y hy => by simpa using h.bits y hy⟩
  unfold SomeDB.evict
  rw [Prog.get_bind, if_neg h.size_ne_zero, h.size]
  cases hhand : r.hand with
  | none =>
    refine ⟨{ r with hand := r.frames.nodes.head?.map (·.id) }, ?_, hswept _, ?_⟩
    · rw [if_pos rfl, Prog.modify_bind]
    · simp only [sweepOrder, hhand, h.nodes, List.head?_map, Option.map_map]
      rfl
  | some id =>
    refine ⟨r, by rw [if_neg (by simp)], hswept r.hand, ?_⟩
    obtain ⟨x, hx, rfl⟩ := List.mem_map.mp (h.hand id (by rw [hhand]; rfl))
    obtain ⟨a, b, hfs⟩ := List.append_of_mem hx
    simp only [sweepOrder, hhand, h.dropWhile_eq hfs, List.cons_append, List.head?_cons, Option.map_some]

/-! ## The selection -/

/-- What is stored for another frame when a frame was taken out. -/
theorem Swept.stored_of_takable (h : Swept r₀ fs done r) (h₀ : Sweepable r₀ fs) (hx : x ∈ fs) (hy : y ∈ fs)
    (hyx : y ≠ x) {z : Nat} {ht : HashTable FrameInfo} (hht : tableWithout x.key z r.frameTable ht)
    (hnot : ∀ el ∈ behind x.key r.frameTable, el.data.owner ≠ y.id) :
    stored y.key ht = some { y.element (y.ref && y ∉ done) with freed := decide (y.id = z) } := by
  obtain ⟨i, el, els, hi, hb, hel, hbehind, rfl⟩ := hht
  have hkey : y.key ≠ x.key := fun he => hyx (h₀.key_inj hy hx he)
  have hstored := stored_of_found (h.bits y hy)
  -- the element behind is not that of `y`
  have hcond : ¬ (hash y.key r.frameTable = .ok i ∧ els.head?.any (fun e => e.key = y.key) = true) := by
    rintro ⟨hj, hany⟩
    cases hels : els with
    | nil => simp [hels] at hany
    | cons e rest =>
      have he : e.key = y.key := by simpa [hels] using hany
      have hne : ¬ el.key = y.key := fun heq => hkey (heq.symm.trans hel)
      unfold stored Bucket.chain at hstored
      rw [bucketAt_eq hj, hb, hels] at hstored
      simp [hne, he] at hstored
      exact hnot e (by rw [hbehind, hels]; rfl) (by rw [hstored]; rfl)
  rw [stored_freeKey, stored_removeHead hi hb hel hkey, if_neg hcond, hstored]
  simp [Listed.element]

/-- An element with the string of a frame of the list is the frame's element. -/
theorem Swept.owner_eq (h : Swept r₀ fs done r) (h₀ : Sweepable r₀ fs) (hy : y ∈ fs) {key : CString}
    {el : HashEl FrameInfo} (hel : el ∈ behind key r.frameTable) (howner : el.data.owner = y.id) :
    el.key = y.key ∧ hash y.key r.frameTable = hash key r.frameTable := by
  have houtline := behind_of_skeleton h.skeleton key
  rw [show behind key r.frameTable = some el from hel, Option.map_some] at houtline
  obtain ⟨el₀, hel₀, he⟩ := Option.map_eq_some_iff.mp houtline.symm
  obtain ⟨hkey, howner₀, -⟩ : el₀.key = el.key ∧ el₀.data.owner = el.data.owner ∧ el₀.freed = el.freed := by
    simpa [outline] using he
  unfold behind at hel₀
  obtain ⟨b, hb, hnext⟩ := Option.bind_eq_some_iff.mp hel₀
  rw [hash_of_skeleton h.skeleton, hash_of_skeleton h.skeleton]
  cases hi : hash key r₀.frameTable with
  | error e => rw [bucketAt_of_error hi] at hb; cases hb
  | ok i =>
    rw [bucketAt_eq hi] at hb
    have hmem : el₀ ∈ b.chain := List.mem_append_right _ (List.mem_of_mem_head? hnext)
    obtain ⟨hk, hj⟩ := h₀.owners (b, i) (List.mk_mem_zipIdx_iff_getElem?.mpr hb) el₀ hmem y hy (howner₀.trans howner)
    exact ⟨hkey.symm.trans hk, hj⟩

/-- The element behind is freed when a frame is taken out. -/
theorem Swept.freed_of_behind (h : Swept r₀ fs done r) (h₀ : Sweepable r₀ fs) (hx : x ∈ fs) (hy : y ∈ fs)
    (hyx : y ≠ x) {z : Nat} {ht : HashTable FrameInfo} (hht : tableWithout x.key z r.frameTable ht)
    {el : HashEl FrameInfo} (hel : el ∈ behind x.key r.frameTable) (howner : el.data.owner = y.id) :
    (stored y.key ht).any (·.freed) = true := by
  obtain ⟨hk, hj⟩ := h.owner_eq h₀ hy hel howner
  obtain ⟨i, first, els, hi, hb, hfirst, hbehind, rfl⟩ := hht
  have hels : els.head? = some el := hbehind.symm.trans hel
  rw [stored_freeKey, stored_removeHead hi hb hfirst fun he => hyx (h₀.key_inj hy hx he),
    if_pos ⟨hj.trans hi, by simp [hels, hk]⟩, hels]
  rfl

theorem Sweepable.mem_erase (h : Sweepable r fs) (hy : y ∈ fs) {z : Listed} (hz : z ∈ fs) :
    y.node ∈ (fs.erase z).map Listed.node ↔ y.id ≠ z.id := by
  have hnodup : fs.Nodup := h.ids.of_map
  constructor
  · intro hmem hid
    obtain ⟨w, hw, he⟩ := List.mem_map.mp hmem
    have hwfs := List.mem_of_mem_erase hw
    obtain rfl : w = y := h.id_inj hwfs hy (congrArg ListNode.id he)
    obtain rfl : w = z := h.id_inj hy hz hid
    exact hnodup.not_mem_erase hw
  · intro hid
    exact List.mem_map.mpr ⟨y, (List.mem_erase_of_ne fun he => hid (congrArg Listed.id he)).mpr hy, rfl⟩

/-- A sweep that comes to a frame without its bit. -/
theorem Sweepable.victim_iff (h : Sweepable r fs) (horder : sweepOrder r fs = seg ++ x :: rest)
    (hseg : ∀ y ∈ seg, y.ref = true) (href : x.ref = false) :
    (∃ r', SomeDB.evict r = (.ok (some x.frame.toNat), r') ∧ ∀ y ∈ fs, y ≠ x → BitIs r' y (y.ref && y ∉ seg)) ↔
      Takable x fs r.frameTable := by
  have hx : x ∈ fs := (sweepOrder_perm r fs).mem_iff.mp (by rw [horder]; simp)
  obtain ⟨r₁, hevict, h₁, hhand₁⟩ := h.evict_eq
  obtain ⟨r₂, hrun, h₂, hhand₂⟩ := h₁.passAll h seg (x :: rest) horder
    (by rw [hhand₁, horder, List.append_nil]) hseg (rest.length + 1)
  have hlen : fs.length = seg.length + (rest.length + 1) := by
    rw [← (sweepOrder_perm r fs).length_eq, horder, List.length_append, List.length_cons]
  rw [hevict, hlen, hrun, h₂.round h hx hhand₂, if_neg (by simp [href])]
  constructor
  · rintro ⟨r', hrun', hbits⟩
    obtain ⟨f, r₃, hout, hret⟩ := Prog.bind_eq_ok hrun'
    cases hret
    have htakable := h₂.takable h hx hout
    obtain ⟨z, hz, r₄, hout', hnodes, hht⟩ := h₂.takeFrameOut_ok h hx htakable
    rw [hout] at hout'
    cases hout'
    refine Takable.of_skeleton h₂.skeleton ⟨htakable.1, fun el hel => ⟨(htakable.2 el hel).1, fun y hy howner => ?_⟩⟩
    by_cases hyt : y ∈ touched fs x
    · exact (htakable.2 el hel).2 y hyt howner
    · -- the frame is still in the list, and its element is freed
      have hyx : y ≠ x := fun he => hyt (he ▸ List.mem_cons_self ..)
      have hyz : y.id ≠ z.id := fun hid => hyt (h.id_inj hy (touched_sub hx z hz) hid ▸ hz)
      have hfreed := h₂.freed_of_behind h hx hy hyx hht hel howner
      obtain ⟨el₁, hstored, -, hlive⟩ := hbits y hy hyx
      rw [hstored] at hfreed
      have hfalse := hlive (by rw [hnodes]; exact (h.mem_erase hy (touched_sub hx z hz)).mpr hyz)
      exact Bool.false_ne_true (hfalse.symm.trans hfreed)
  · intro hsafe
    have htakable : Takable x fs r₂.frameTable := hsafe.of_skeleton h₂.skeleton.symm
    obtain ⟨z, hz, r', hout, hnodes, hht⟩ := h₂.takeFrameOut_ok h hx (htakable.mono (touched_sub hx))
    refine ⟨r', by rw [Prog.bind_ok hout]; rfl, fun y hy hyx => ?_⟩
    refine ⟨_, h₂.stored_of_takable h hx hy hyx hht fun el hel => (htakable.2 el hel).2 y hy, rfl, fun hmem => ?_⟩
    rw [hnodes] at hmem
    exact decide_eq_false ((h.mem_erase hy (touched_sub hx z hz)).mp hmem)

/-- A sweep that comes round. -/
theorem Sweepable.round_iff (h : Sweepable r fs) (horder : sweepOrder r fs = x :: rest)
    (href : ∀ y ∈ fs, y.ref = true) :
    (∃ r', SomeDB.evict r = (.ok none, r') ∧ (∀ y ∈ fs, BitIs r' y false) ∧ r'.frames = r.frames ∧
      r'.hand = some x.id ∧ ∃ r'', SomeDB.evict r' = (.ok (some x.frame.toNat), r'')) ↔
      Takable x (touched fs x) r.frameTable := by
  have hmem : ∀ y, y ∈ sweepOrder r fs ↔ y ∈ fs := fun y => (sweepOrder_perm r fs).mem_iff
  have hx : x ∈ fs := (hmem x).mp (by rw [horder]; exact List.mem_cons_self ..)
  obtain ⟨r₁, hevict, h₁, hhand₁⟩ := h.evict_eq
  obtain ⟨r₂, hrun, h₂, hhand₂⟩ := h₁.passAll h (sweepOrder r fs) [] (by simp)
    (by rw [hhand₁]; simp) (fun y hy => href y ((hmem y).mp hy)) 0
  rw [(sweepOrder_perm r fs).length_eq, Nat.add_zero] at hrun
  have hfirst : SomeDB.evict r = (.ok none, r₂) := hevict.trans hrun
  rw [List.nil_append] at h₂
  have hhand : r₂.hand = some x.id := by
    rw [hhand₂, horder]
    rfl
  -- the next sweep ends at once
  have hsecond : SomeDB.evict r₂ = (do
      let frame ← takeFrameOut x.id x.key
      pure (some frame) : ClockM (Option Nat)) r₂ := by
    obtain ⟨n, hn⟩ := Nat.exists_eq_succ_of_ne_zero h.size_ne_zero
    unfold SomeDB.evict
    rw [Prog.get_bind, h₂.frames, hn, if_neg (Nat.succ_ne_zero n), if_neg (by rw [hhand]; simp)]
    show evictLoop (n + 1) r₂ = _
    rw [h₂.round h hx hhand, if_neg (by simp [(hmem x).mpr hx])]
  constructor
  · rintro ⟨r', hevict', -, -, -, r'', hrun'⟩
    rw [hfirst] at hevict'
    cases hevict'
    rw [hsecond] at hrun'
    obtain ⟨f, r₃, hout, -⟩ := Prog.bind_eq_ok hrun'
    exact (h₂.takable h hx hout).of_skeleton h₂.skeleton
  · intro hsafe
    obtain ⟨z, -, r'', hout, -⟩ := h₂.takeFrameOut_ok h hx (hsafe.of_skeleton h₂.skeleton.symm)
    refine ⟨r₂, hfirst, fun y hy => ?_, h₂.frames, hhand, r'', by rw [hsecond, Prog.bind_ok hout]; rfl⟩
    refine ⟨_, stored_of_found (h₂.bits y hy), ?_, fun _ => rfl⟩
    simp [Listed.element, (hmem y).mpr hy]

end Sweep

/-- **Second-chance selection.** `evict` selects a frame by the second-chance rule exactly if the bucket of the frame
allows it to be taken out. -/
theorem evict_secondChance_iff {r : ClockReplacer} {fs : List Listed} (h : Sweepable r fs) :
    SecondChance r fs ↔ SweepSafe r fs := by
  have hsplit := List.takeWhile_append_dropWhile (p := (·.ref)) (l := sweepOrder r fs)
  have hseg : ∀ y ∈ (sweepOrder r fs).takeWhile (·.ref), y.ref = true := fun y hy => List.mem_takeWhile_imp hy
  have hnone : ((sweepOrder r fs).takeWhile (·.ref)).find? (fun x => !x.ref) = none := by
    rw [List.find?_eq_none]
    exact fun y hy => by simp [hseg y hy]
  unfold SecondChance SweepSafe
  cases hrest : (sweepOrder r fs).dropWhile (·.ref) with
  | nil =>
    -- all bits are set
    rw [hrest, List.append_nil] at hsplit
    rw [hsplit] at hnone hseg
    rw [hnone]
    cases horder : sweepOrder r fs with
    | nil => exact absurd ((sweepOrder_perm r fs).symm.trans (horder ▸ .refl _)).eq_nil h.ne_nil
    | cons x rest =>
      have href : ∀ y ∈ fs, y.ref = true := fun y hy => hseg y ((sweepOrder_perm r fs).mem_iff.mpr hy)
      have hround := h.round_iff horder href
      simpa using hround
  | cons x rest =>
    have href : ¬ x.ref = true := by
      have := List.head?_dropWhile_not (p := (·.ref)) (l := sweepOrder r fs)
      rw [hrest] at this
      simpa using this
    have hfind : (sweepOrder r fs).find? (fun x => !x.ref) = some x := by
      rw [← hsplit, hrest, List.find?_append, hnone, Option.none_or]
      exact List.find?_cons_of_pos (by simpa using href)
    rw [hrest] at hsplit
    rw [hfind]
    exact h.victim_iff hsplit.symm hseg (by simpa using href)

/-- Three frames that were unpinned and not looked at since. -/
def threeFrames : ClockReplacer := (Prog.runAll clockOp [.unpin 0, .unpin 1, .unpin 2] (clockReplacerInit 3)).2

theorem evict_secondChance_three : SecondChance threeFrames [⟨2, 2, true⟩, ⟨1, 1, true⟩, ⟨0, 0, true⟩] :=
  (evict_secondChance_iff ⟨rfl, rfl, by decide, by decide, by decide, by decide, by decide, by decide, by decide⟩).mpr
    (by decide)

/-- The frames 0 and 2 of a table with two buckets. -/
def collidingFrames : ClockReplacer := (Prog.runAll clockOp [.unpin 0, .unpin 2] (clockReplacerInit 2)).2

/-- The first sweep comes round, and the next one faults on the frame where it starts. -/
theorem evict_secondChance_fails : Sweepable collidingFrames [⟨1, 2, true⟩, ⟨0, 0, true⟩] ∧
    ¬ SecondChance collidingFrames [⟨1, 2, true⟩, ⟨0, 0, true⟩] := by
  refine ⟨⟨rfl, rfl, by decide, by decide, by decide, by decide, by decide, by decide, by decide⟩, fun h => ?_⟩
  obtain ⟨r', hfirst, -, -, -, r'', hsecond⟩ := h
  have hfault : (evict (evict collidingFrames).2).1.isOk = false := by decide
  rw [hfirst, hsecond] at hfault
  cases hfault

end SomeDB
