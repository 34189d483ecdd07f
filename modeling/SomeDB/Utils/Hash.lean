import Mathlib.Data.List.Nodup
import SomeDB.Utils.CString

/-!
# The chained hash table (`hash.c`)

A bucket holds its first element inline; the others are linked cells. `hash_remove` deallocates keys and
data: with `dealloc`, an element whose key and data were freed is marked and reading it is a fault;
without it the calls to `free` are left out. The latch is left out too; it is in the module of the latches.

`HashTable.Refines ht m`: the table is well formed and holds the finite map `m`. Each operation has one
lemma that says what it does to the map.
-/

namespace SomeDB

open Lib

/-- `HashEl` without its link. `freed`: its key and its data were deallocated. -/
structure HashEl (α : Type) where
  key : CString
  data : α
  freed : Bool := false
  deriving DecidableEq

/-- An element of `arr` and the cells linked to it. The inline element has no key when it is unused. -/
structure Bucket (α : Type) where
  head : Option (HashEl α)
  next : List (HashEl α)
  deriving DecidableEq

/-- `HashTable`. -/
structure HashTable (α : Type) where
  arr : List (Bucket α)
  size : UInt16

abbrev HashM (α β : Type) := Prog Fault (HashTable α) β

/-- `init_hash`. The size is stored as a `uint16_t`. -/
def initHash (α : Type) (size : UInt32) : HashTable α where
  arr := List.replicate size.toNat ⟨none, []⟩
  size := size.toUInt16

section

variable {α : Type} (dealloc : Bool)

/-- `hash`: the remainder is that of two `int`s, returned as a `uint16_t`. -/
def hash (key : CString) (ht : HashTable α) : Except Fault Nat :=
  if ht.size = 0 then .error .divByZero
  else .ok ((Int.tmod (atoi key) ht.size.toNat) % 65536).toNat

/-- `strcmp(el->key, key) == 0`. -/
def HashEl.keyIs (el : HashEl α) (key : CString) : Except Fault Bool :=
  if dealloc && el.freed then .error .freed else .ok (el.key = key)

/-- `ht->arr[idx]` for the key's `idx`. -/
def bucketOf (key : CString) : HashM α (Nat × Bucket α) := do
  let ht ← Prog.get
  let idx ← Prog.lift (hash key ht)
  match ht.arr[idx]? with
  | some b => pure (idx, b)
  | none => Prog.fault .outOfBounds

/-- `ht->arr[idx] = b`. -/
def setBucket (idx : Nat) (b : Bucket α) : HashM α Unit :=
  Prog.modify fun ht => { ht with arr := ht.arr.set idx b }

/-- The walk of `hash_insert` over the linked cells: the element with the key is overwritten, or the new
one is linked to the last. -/
def insertNext (el : HashEl α) : List (HashEl α) → Except Fault (List (HashEl α))
  | [] => .ok [el]
  | temp :: rest => do
    if ← temp.keyIs dealloc el.key then .ok (el :: rest)
    else .ok (temp :: (← insertNext el rest))

/-- `hash_insert` with a key and data that are not null. -/
def hashInsert (key : CString) (data : α) : HashM α Unit := do
  let (idx, b) ← bucketOf key
  let el : HashEl α := { key, data }
  match b.head with
  | none => setBucket idx ⟨some el, []⟩
  | some temp =>
    if ← Prog.lift (temp.keyIs dealloc key) then setBucket idx ⟨some el, b.next⟩
    else setBucket idx ⟨some temp, ← Prog.lift (insertNext dealloc el b.next)⟩

/-- Where `hash_remove` found its element. A linked cell is freed with its key and data. -/
inductive Removed where
  | absent
  | head
  | linked
  deriving DecidableEq, Repr

/-- The walk of `hash_remove` over the linked cells. -/
def removeNext (key : CString) : List (HashEl α) → Except Fault (Option (List (HashEl α)))
  | [] => .ok none
  | temp :: rest => do
    if ← temp.keyIs dealloc key then .ok (some rest)
    else .ok ((← removeNext key rest).map (temp :: ·))

/-- The first element is removed: the next one is copied into its place. What is then deallocated are
the key and the data of the element that is in `arr` now. -/
def removeHead (b : Bucket α) : Bucket α :=
  match b.next with
  | [] => ⟨none, []⟩
  | next :: rest => ⟨some { next with freed := dealloc || next.freed }, rest⟩

/-- `hash_remove`; `*success_out` is true unless the result is `absent`. In an unused bucket the loop
stops at the inline element as if it were the one to remove. -/
def hashRemove (key : CString) : HashM α Removed := do
  let (idx, b) ← bucketOf key
  match b.head with
  | none => do
    setBucket idx (removeHead dealloc b)
    pure .head
  | some temp =>
    if ← Prog.lift (temp.keyIs dealloc key) then do
      setBucket idx (removeHead dealloc b)
      pure .head
    else
      match ← Prog.lift (removeNext dealloc key b.next) with
      | none => pure .absent
      | some next => do
        setBucket idx ⟨some temp, next⟩
        pure .linked

/-- The walk of `hash_find`. -/
def findNext (key : CString) : List (HashEl α) → Except Fault (Option (HashEl α))
  | [] => .ok none
  | temp :: rest => do
    if ← temp.keyIs dealloc key then .ok (some temp) else findNext key rest

/-- `hash_find`. -/
def hashFind (key : CString) : HashM α (Option (HashEl α)) := do
  let (_, b) ← bucketOf key
  match b.head with
  | none => pure none
  | some head => Prog.lift (findNext dealloc key (head :: b.next))

/-- `*(T *)el->data`, if `el` is not null and not freed. -/
def deref {α : Type} : Option (HashEl α) → Except Fault α
  | none => .error .nullPointer
  | some el => if el.freed then .error .freed else .ok el.data

theorem hashFind_state {α : Type} (dealloc : Bool) (key : CString) (ht : HashTable α) :
    (hashFind dealloc key ht).2 = ht := by
  have hbucket : (bucketOf key ht).2 = ht := by
    rw [bucketOf, Prog.get_bind]
    cases hash key ht with
    | error e => rfl
    | ok i =>
      rw [Prog.lift_ok_bind]
      cases ht.arr[i]? <;> rfl
  rw [hashFind]
  rcases hrun : bucketOf key ht with ⟨_ | ⟨i, b⟩, ht'⟩
  · rw [Prog.bind_error hrun]
    rw [hrun] at hbucket
    exact hbucket
  · rw [Prog.bind_ok hrun]
    rw [hrun] at hbucket
    obtain ⟨head, next⟩ := b
    cases head <;> exact hbucket

theorem findNext_insertNext {α : Type} {dealloc : Bool} {key : CString} {data : α} {els els' : List (HashEl α)}
    (h : insertNext dealloc ⟨key, data, false⟩ els = .ok els') :
    findNext dealloc key els' = .ok (some ⟨key, data, false⟩) := by
  have hself : (⟨key, data, false⟩ : HashEl α).keyIs dealloc key = .ok true := by simp [HashEl.keyIs]
  induction els generalizing els' with
  | nil =>
    cases h
    rw [findNext, hself]
    rfl
  | cons temp rest ih =>
    rw [insertNext] at h
    obtain ⟨eq, hkey, h⟩ := except_bind_eq_ok h
    cases eq with
    | true =>
      cases h
      rw [findNext, hself]
      rfl
    | false =>
      obtain ⟨rest', hrest, h⟩ := except_bind_eq_ok h
      cases h
      rw [findNext, hkey]
      exact ih hrest

/-! ## Lookups in any table

Whatever a table holds, also elements that were freed, an insertion changes what is found under its own
key only, and a removal what is found in its own bucket. -/

/-- What `hash_find` returns. -/
def found {α : Type} (ht : HashTable α) (key : CString) : Except Fault (Option (HashEl α)) :=
  (hashFind true key ht).1

/-- The walk of `hash_find` through a bucket. -/
def Bucket.find {α : Type} (b : Bucket α) (key : CString) : Except Fault (Option (HashEl α)) :=
  match b.head with
  | none => .ok none
  | some head => findNext true key (head :: b.next)

/-- The elements that a walk through the bucket comes to. -/
def Bucket.walked {α : Type} (b : Bucket α) : List (HashEl α) :=
  match b.head with
  | none => []
  | some head => head :: b.next

section Found

variable {α : Type} {dealloc : Bool} {ht ht' : HashTable α} {key k : CString} {data : α} {i : Nat} {b b' : Bucket α}
  {el head : HashEl α} {next next' : List (HashEl α)}

theorem keyIs_eq_ok {eq : Bool} (h : el.keyIs dealloc key = .ok eq) :
    (dealloc && el.freed) = false ∧ (eq = true ↔ el.key = key) := by
  unfold HashEl.keyIs at h
  split at h
  · cases h
  · next hfreed =>
    cases h
    exact ⟨Bool.eq_false_iff.mpr hfreed, decide_eq_true_iff⟩

theorem keyIs_self (hkey : el.key = key) (hfreed : el.freed = false) : el.keyIs dealloc key = .ok true := by
  unfold HashEl.keyIs
  rw [hfreed, hkey]
  simp

/-- An element that has the key has no other one. -/
theorem keyIs_other (h : el.keyIs dealloc key = .ok true) (hk : k ≠ key) : el.keyIs dealloc k = .ok false := by
  obtain ⟨hread, hkey⟩ := keyIs_eq_ok h
  have hne : ¬ el.key = k := fun he => hk (he.symm.trans (hkey.mp rfl))
  unfold HashEl.keyIs
  rw [hread, if_neg Bool.false_ne_true, decide_eq_false hne]

theorem bucketOf_eq_ok {p : Nat × Bucket α} (h : bucketOf key ht = (.ok p, ht')) :
    hash key ht = .ok p.1 ∧ ht.arr[p.1]? = some p.2 ∧ ht' = ht := by
  rw [bucketOf, Prog.get_bind] at h
  obtain ⟨j, hj, h₁⟩ := Prog.lift_bind_eq_ok h
  cases hb : ht.arr[j]? with
  | none => rw [hb] at h₁; cases h₁
  | some c =>
    rw [hb] at h₁
    cases h₁
    exact ⟨hj, hb, rfl⟩

theorem bucketOf_eq (hi : hash key ht = .ok i) (hb : ht.arr[i]? = some b) :
    bucketOf key ht = (.ok (i, b), ht) := by
  rw [bucketOf, Prog.get_bind, hi, Prog.lift_ok_bind, hb]
  rfl

/-- `hash_insert` puts the element into the walk of the bucket. -/
theorem hashInsert_of_walk (hi : hash key ht = .ok i) (hb : ht.arr[i]? = some b)
    (hins : insertNext dealloc ⟨key, data, false⟩ b.walked = .ok (head :: next)) :
    hashInsert dealloc key data ht = (.ok (), { ht with arr := ht.arr.set i ⟨some head, next⟩ }) := by
  unfold hashInsert
  rw [Prog.bind_ok (bucketOf_eq hi hb)]
  obtain ⟨_ | temp, rest⟩ := b
  · cases hins
    rfl
  · rw [Bucket.walked, insertNext] at hins
    obtain ⟨eq, heq, hins⟩ := except_bind_eq_ok hins
    simp only
    rw [heq, Prog.lift_ok_bind]
    cases eq with
    | true =>
      cases hins
      rfl
    | false =>
      obtain ⟨rest', hrest, hins⟩ := except_bind_eq_ok hins
      cases hins
      rw [if_neg Bool.false_ne_true, hrest]
      rfl

/-- What an insertion does. -/
theorem hashInsert_eq_ok {u : Unit} (h : hashInsert dealloc key data ht = (.ok u, ht')) :
    ∃ i b head next, hash key ht = .ok i ∧ ht.arr[i]? = some b ∧
      insertNext dealloc ⟨key, data, false⟩ b.walked = .ok (head :: next) ∧
      ht' = { ht with arr := ht.arr.set i ⟨some head, next⟩ } := by
  unfold hashInsert at h
  obtain ⟨⟨i, b⟩, ht₁, hbucket, h⟩ := Prog.bind_eq_ok h
  obtain ⟨hi, hb, rfl⟩ := bucketOf_eq_ok hbucket
  obtain ⟨_ | temp, rest⟩ := b
  · cases h
    exact ⟨i, _, _, _, hi, hb, rfl, rfl⟩
  · simp only at h
    obtain ⟨eq, heq, h⟩ := Prog.lift_bind_eq_ok h
    cases eq with
    | true =>
      cases h
      refine ⟨i, _, _, _, hi, hb, ?_, rfl⟩
      rw [Bucket.walked, insertNext, heq]
      rfl
    | false =>
      obtain ⟨rest', hrest, h⟩ := Prog.lift_bind_eq_ok h
      cases h
      refine ⟨i, _, _, _, hi, hb, ?_, rfl⟩
      rw [Bucket.walked, insertNext, heq]
      simp only [hrest]
      rfl

/-- The first element is removed, or none is there. -/
theorem hashRemove_of_head (hi : hash key ht = .ok i) (hb : ht.arr[i]? = some b)
    (hhead : ∀ head, b.head = some head → head.keyIs dealloc key = .ok true) :
    hashRemove dealloc key ht = (.ok .head, { ht with arr := ht.arr.set i (removeHead dealloc b) }) := by
  unfold hashRemove
  rw [Prog.bind_ok (bucketOf_eq hi hb)]
  obtain ⟨_ | head, next⟩ := b
  · rfl
  · simp only
    rw [hhead head rfl, Prog.lift_ok_bind, if_pos rfl]
    rfl

theorem hashRemove_of_linked (hi : hash key ht = .ok i) (hb : ht.arr[i]? = some ⟨some head, next⟩)
    (hhead : head.keyIs dealloc key = .ok false) (hnext : removeNext dealloc key next = .ok (some next')) :
    hashRemove dealloc key ht = (.ok .linked, { ht with arr := ht.arr.set i ⟨some head, next'⟩ }) := by
  unfold hashRemove
  rw [Prog.bind_ok (bucketOf_eq hi hb)]
  simp only
  rw [hhead, Prog.lift_ok_bind, if_neg Bool.false_ne_true, hnext]
  rfl

theorem hashRemove_of_absent (hi : hash key ht = .ok i) (hb : ht.arr[i]? = some ⟨some head, next⟩)
    (hhead : head.keyIs dealloc key = .ok false) (hnext : removeNext dealloc key next = .ok none) :
    hashRemove dealloc key ht = (.ok .absent, ht) := by
  unfold hashRemove
  rw [Prog.bind_ok (bucketOf_eq hi hb)]
  simp only
  rw [hhead, Prog.lift_ok_bind, if_neg Bool.false_ne_true, hnext]
  rfl

/-- What a removal does: the first element goes, a linked one or none. -/
theorem hashRemove_eq_ok {r : Removed} (h : hashRemove dealloc key ht = (.ok r, ht')) :
    ∃ i b, hash key ht = .ok i ∧ ht.arr[i]? = some b ∧
      (r = .head ∧ (∀ head, b.head = some head → head.keyIs dealloc key = .ok true) ∧
          ht' = { ht with arr := ht.arr.set i (removeHead dealloc b) } ∨
        ∃ head, b.head = some head ∧ head.keyIs dealloc key = .ok false ∧
          (r = .absent ∧ removeNext dealloc key b.next = .ok none ∧ ht' = ht ∨
            ∃ next', r = .linked ∧ removeNext dealloc key b.next = .ok (some next') ∧
              ht' = { ht with arr := ht.arr.set i ⟨some head, next'⟩ })) := by
  unfold hashRemove at h
  obtain ⟨⟨i, b⟩, ht₁, hbucket, h⟩ := Prog.bind_eq_ok h
  obtain ⟨hi, hb, rfl⟩ := bucketOf_eq_ok hbucket
  refine ⟨i, b, hi, hb, ?_⟩
  obtain ⟨_ | head, next⟩ := b
  · cases h
    exact .inl ⟨rfl, fun head hsome => absurd hsome.symm (Option.some_ne_none head), rfl⟩
  · simp only at h
    obtain ⟨eq, heq, h⟩ := Prog.lift_bind_eq_ok h
    cases eq with
    | true =>
      cases h
      exact .inl ⟨rfl, fun _ hsome => Option.some.inj hsome ▸ heq, rfl⟩
    | false =>
      refine .inr ⟨head, rfl, heq, ?_⟩
      obtain ⟨o, ho, h⟩ := Prog.lift_bind_eq_ok h
      cases o with
      | none =>
        cases h
        exact .inl ⟨rfl, ho, rfl⟩
      | some next' =>
        cases h
        exact .inr ⟨next', rfl, ho, rfl⟩

theorem Bucket.find_eq (b : Bucket α) (key : CString) : b.find key = findNext true key b.walked := by
  obtain ⟨_ | head, next⟩ := b
  · rfl
  · rfl

theorem found_eq (hi : hash key ht = .ok i) (hb : ht.arr[i]? = some b) : found ht key = b.find key := by
  rw [found, hashFind, Prog.bind_ok (bucketOf_eq hi hb)]
  obtain ⟨head, next⟩ := b
  cases head with
  | none => rfl
  | some head => rfl

theorem found_set_same (hi : hash key ht = .ok i) (hb : ht.arr[i]? = some b) :
    found { ht with arr := ht.arr.set i b' } key = b'.find key := by
  have hlt := (List.getElem?_eq_some_iff.mp hb).1
  have hi' : hash key ({ ht with arr := ht.arr.set i b' } : HashTable α) = .ok i := hi
  exact found_eq hi' (List.getElem?_set_self hlt)

theorem found_set_ne (hi : hash key ht ≠ .ok i) : found { ht with arr := ht.arr.set i b' } key = found ht key := by
  cases hj : hash key ht with
  | error e =>
    have hrun : ∀ ht' : HashTable α, hash key ht' = .error e → found ht' key = .error e := by
      intro ht' he
      rw [found, hashFind, bucketOf, Prog.bind_assoc_apply, Prog.get_bind, he]
      rfl
    rw [hrun ht hj]
    exact hrun _ hj
  | ok j =>
    have hne : i ≠ j := by
      rintro rfl
      exact hi hj
    cases hb : ht.arr[j]? with
    | none =>
      have hrun : ∀ ht' : HashTable α, hash key ht' = .ok j → ht'.arr[j]? = none →
          found ht' key = .error .outOfBounds := by
        intro ht' hj' hb'
        rw [found, hashFind, bucketOf, Prog.bind_assoc_apply, Prog.get_bind, hj', Prog.bind_assoc_apply,
          Prog.lift_ok_bind, hb']
        rfl
      rw [hrun ht hj hb]
      exact hrun _ hj (by simp only [List.getElem?_set_ne hne]; exact hb)
    | some b =>
      have hj' : hash key ({ ht with arr := ht.arr.set i b' } : HashTable α) = .ok j := hj
      rw [found_eq hj hb]
      exact found_eq hj' (by simp only [List.getElem?_set_ne hne]; exact hb)

theorem findNext_insertNext_ne {els els' : List (HashEl α)} (hk : k ≠ key)
    (h : insertNext true ⟨key, data, false⟩ els = .ok els') : findNext true k els' = findNext true k els := by
  have hself : (⟨key, data, false⟩ : HashEl α).keyIs true k = .ok false := by
    simp [HashEl.keyIs, Ne.symm hk]
  induction els generalizing els' with
  | nil =>
    cases h
    rw [findNext, findNext, hself]
    rfl
  | cons temp rest ih =>
    rw [insertNext] at h
    obtain ⟨eq, hkey, h⟩ := except_bind_eq_ok h
    cases eq with
    | true =>
      -- the element that is overwritten has the key of the new one
      cases h
      rw [findNext, hself, findNext, keyIs_other hkey hk]
      rfl
    | false =>
      obtain ⟨rest', hrest, h⟩ := except_bind_eq_ok h
      cases h
      rw [findNext, findNext, ih hrest]

/-- What `hash_insert` does to the bucket of its key. -/
theorem hashInsert_bucket {u : Unit} (h : hashInsert true key data ht = (.ok u, ht')) :
    ∃ i b b', hash key ht = .ok i ∧ ht.arr[i]? = some b ∧ ht' = { ht with arr := ht.arr.set i b' } ∧
      b'.find key = .ok (some ⟨key, data, false⟩) ∧ ∀ k, k ≠ key → b'.find k = b.find k := by
  obtain ⟨i, b, head, next, hi, hb, hins, rfl⟩ := hashInsert_eq_ok h
  refine ⟨i, b, _, hi, hb, rfl, findNext_insertNext hins, fun k hk => ?_⟩
  rw [Bucket.find_eq, Bucket.find_eq]
  exact findNext_insertNext_ne hk hins

/-- `hash_find` finds what `hash_insert` put in. -/
theorem found_hashInsert {u : Unit} (h : hashInsert true key data ht = (.ok u, ht')) :
    found ht' key = .ok (some ⟨key, data, false⟩) := by
  obtain ⟨i, b, b', hi, hb, rfl, hfind, -⟩ := hashInsert_bucket h
  rw [found_set_same hi hb, hfind]

theorem found_hashInsert_ne {u : Unit} (h : hashInsert true key data ht = (.ok u, ht')) (hk : k ≠ key) :
    found ht' k = found ht k := by
  obtain ⟨i, b, b', hi, hb, rfl, -, hfind⟩ := hashInsert_bucket h
  by_cases hik : hash k ht = .ok i
  · rw [found_set_same hik hb, hfind k hk, found_eq hik hb]
  · exact found_set_ne hik

theorem findNext_of_removeNext {els : List (HashEl α)} (h : removeNext true key els = .ok none) :
    findNext true key els = .ok none := by
  induction els with
  | nil => rfl
  | cons temp rest ih =>
    rw [removeNext] at h
    obtain ⟨eq, hkey, h⟩ := except_bind_eq_ok h
    cases eq with
    | true => cases h
    | false =>
      obtain ⟨o, hrest, h⟩ := except_bind_eq_ok h
      cases o with
      | none =>
        rw [findNext, hkey]
        exact ih hrest
      | some rest' => cases h

/-- After a removal the bucket can be empty or unreadable. -/
theorem removeHead_find (b : Bucket α) (k : CString) :
    (removeHead true b).find k = .ok none ∨ ∃ e, (removeHead true b).find k = .error e := by
  obtain ⟨head, next⟩ := b
  cases next with
  | nil => exact .inl rfl
  | cons x rest =>
    refine .inr ⟨.freed, ?_⟩
    rw [removeHead, Bucket.find]
    rfl

/-- What `hash_remove` leaves, unless it frees a linked cell: its key is not found, and others are found as
before or not readable. -/
theorem found_hashRemove {r : Removed} (h : hashRemove true key ht = (.ok r, ht')) (hr : r ≠ .linked) :
    (found ht' key = .ok none ∨ ∃ e, found ht' key = .error e) ∧
      ∀ k, k ≠ key → found ht' k = found ht k ∨ ∃ e, found ht' k = .error e := by
  obtain ⟨i, b, hi, hb, ⟨-, hhead, rfl⟩ | ⟨head, hhead, hne, ⟨-, hnone, rfl⟩ | ⟨next', rfl, -, -⟩⟩⟩ :=
    hashRemove_eq_ok h
  · -- the first element is removed
    have hone : ∀ k, k ≠ key → b.next = [] → b.find k = .ok none := by
      intro k hk hnext
      obtain ⟨_ | head, next⟩ := b
      · rfl
      · cases hnext
        rw [Bucket.find_eq, Bucket.walked, findNext, keyIs_other (hhead head rfl) hk]
        rfl
    refine ⟨by rw [found_set_same hi hb]; exact removeHead_find b key, fun k hk => ?_⟩
    by_cases hik : hash k ht = .ok i
    · rw [found_set_same hik hb, found_eq hik hb]
      cases hnext : b.next with
      | nil =>
        rw [hone k hk hnext]
        exact removeHead_find b k
      | cons x rest =>
        refine .inr ⟨.freed, ?_⟩
        rw [removeHead, hnext]
        rfl
    · exact .inl (found_set_ne hik)
  · refine ⟨.inl ?_, fun k _ => .inl rfl⟩
    rw [found_eq hi hb, Bucket.find, hhead]
    simp only
    rw [findNext, hne]
    exact findNext_of_removeNext hnone
  · exact absurd rfl hr

end Found

/-- A call on the table. -/
inductive HashOp (α : Type) where
  | insert (key : CString) (data : α)
  | remove (key : CString)
  deriving DecidableEq

def HashOp.key : HashOp α → CString
  | .insert key _ => key
  | .remove key => key

def hashOp : HashOp α → HashM α Unit
  | .insert key data => hashInsert dealloc key data
  | .remove key => do let _ ← hashRemove dealloc key

end

/-! ## Chains -/

/-- The elements of a bucket in the order of the walks. -/
def Bucket.chain {α : Type} (b : Bucket α) : List (HashEl α) := b.head.toList ++ b.next

/-- An unused bucket has no linked cells. -/
def Bucket.Ok {α : Type} (b : Bucket α) : Prop := b.head = none → b.next = []

/-- The walks come to all elements. -/
theorem Bucket.Ok.walked_eq {α : Type} {b : Bucket α} (h : b.Ok) : b.walked = b.chain := by
  obtain ⟨_ | head, next⟩ := b
  · rw [Bucket.chain, h rfl]
    rfl
  · rfl

section Chains

variable {α : Type} {dealloc : Bool} {key : CString} {el : HashEl α} {els : List (HashEl α)}
  {b : Bucket α}

/-- The elements with `el` in the place of the one with its key, or at the end. -/
def putKey (el : HashEl α) : List (HashEl α) → List (HashEl α)
  | [] => [el]
  | temp :: rest => if temp.key = el.key then el :: rest else temp :: putKey el rest

theorem putKey_ne_nil (el : HashEl α) (els : List (HashEl α)) : putKey el els ≠ [] := by
  cases els with
  | nil => exact List.cons_ne_nil el []
  | cons temp rest =>
    rw [putKey]
    split
    · exact List.cons_ne_nil el rest
    · exact List.cons_ne_nil temp _

/-- The walks may read the keys of these elements. -/
def Readable (dealloc : Bool) (els : List (HashEl α)) : Prop :=
  ∀ el ∈ els, (dealloc && el.freed) = false

theorem Readable.keyIs (h : Readable dealloc (el :: els)) (key : CString) :
    el.keyIs dealloc key = .ok (el.key = key) := by
  rw [HashEl.keyIs, h el (List.mem_cons_self ..), if_neg (by simp)]

theorem Readable.tail (h : Readable dealloc (el :: els)) : Readable dealloc els :=
  fun x hx => h x (List.mem_cons_of_mem _ hx)

theorem insertNext_ok (h : Readable dealloc els) (el : HashEl α) :
    insertNext dealloc el els = .ok (putKey el els) := by
  induction els with
  | nil => rfl
  | cons temp rest ih =>
    rw [insertNext, h.keyIs, putKey]
    by_cases hk : temp.key = el.key
    · simp [hk, bind, Except.bind]
    · simp [hk, bind, Except.bind, ih h.tail]

theorem removeNext_ok (h : Readable dealloc els) (key : CString) :
    removeNext dealloc key els =
      .ok (if key ∈ els.map (·.key) then some (els.eraseP fun x => x.key = key) else none) := by
  induction els with
  | nil => rfl
  | cons temp rest ih =>
    rw [removeNext, h.keyIs]
    by_cases hk : temp.key = key
    · simp [hk, bind, Except.bind]
    · have hk' : ¬ key = temp.key := fun he => hk he.symm
      simp only [hk, bind, Except.bind, decide_false, Bool.false_eq_true, if_false, ih h.tail,
        List.map_cons, List.mem_cons, hk', false_or, List.eraseP_cons_of_neg, not_false_eq_true]
      split <;> rfl

theorem findNext_ok (h : Readable dealloc els) (key : CString) :
    findNext dealloc key els = .ok (els.find? fun x => x.key = key) := by
  induction els with
  | nil => rfl
  | cons temp rest ih =>
    rw [findNext, h.keyIs]
    by_cases hk : temp.key = key
    · simp [hk, bind, Except.bind]
    · simp [hk, bind, Except.bind, ih h.tail]

theorem mem_putKey {x : HashEl α} (h : x ∈ putKey el els) : x = el ∨ x ∈ els := by
  induction els with
  | nil => exact .inl (by simpa [putKey] using h)
  | cons temp rest ih =>
    rw [putKey] at h
    split at h
    · rcases List.mem_cons.mp h with h | h
      · exact .inl h
      · exact .inr (List.mem_cons_of_mem _ h)
    · rcases List.mem_cons.mp h with h | h
      · exact .inr (h ▸ List.mem_cons_self ..)
      · exact (ih h).imp_right (List.mem_cons_of_mem _)

theorem mem_keys_putKey {k : CString} :
    k ∈ (putKey el els).map (·.key) ↔ k = el.key ∨ k ∈ els.map (·.key) := by
  induction els with
  | nil => simp [putKey]
  | cons temp rest ih =>
    rw [putKey]
    split
    · next hk => simp [hk]
    · simp only [List.map_cons, List.mem_cons, ih]
      tauto

theorem nodup_putKey (h : (els.map (·.key)).Nodup) : ((putKey el els).map (·.key)).Nodup := by
  induction els with
  | nil => simp [putKey]
  | cons temp rest ih =>
    rw [List.map_cons, List.nodup_cons] at h
    rw [putKey]
    split
    · next hk => rw [List.map_cons, List.nodup_cons, ← hk]; exact h
    · next hk =>
      rw [List.map_cons, List.nodup_cons, mem_keys_putKey]
      exact ⟨fun hm => hm.elim hk h.1, ih h.2⟩

/-- What a search finds after an insertion. -/
theorem find_putKey (k : CString) : (putKey el els).find? (fun x => x.key = k) =
    if k = el.key then some el else els.find? fun x => x.key = k := by
  induction els with
  | nil => by_cases hk : k = el.key <;> simp [putKey, hk, eq_comm]
  | cons temp rest ih =>
    rw [putKey]
    by_cases hk : temp.key = el.key
    · rw [if_pos hk]
      by_cases hke : k = el.key
      · simp [hke]
      · have h₁ : ¬ el.key = k := fun he => hke he.symm
        have h₂ : ¬ temp.key = k := fun he => h₁ (hk ▸ he)
        simp [hke, h₁, h₂]
    · rw [if_neg hk]
      by_cases hkt : temp.key = k
      · have : ¬ k = el.key := fun he => hk (hkt.trans he)
        simp [hkt, this]
      · simp [hkt, ih]

theorem nodup_eraseP (h : (els.map (·.key)).Nodup) (key : CString) :
    ((els.eraseP fun x => x.key = key).map (·.key)).Nodup :=
  h.sublist (List.eraseP_sublist.map _)

/-- What a search finds after a removal. -/
theorem find_eraseP (h : (els.map (·.key)).Nodup) (key k : CString) :
    (els.eraseP fun x => x.key = key).find? (fun x => x.key = k) =
      if k = key then none else els.find? fun x => x.key = k := by
  induction els with
  | nil => simp
  | cons temp rest ih =>
    rw [List.map_cons, List.nodup_cons] at h
    by_cases ht : temp.key = key
    · rw [List.eraseP_cons_of_pos (by simpa using ht)]
      by_cases hk : k = key
      · rw [if_pos hk, List.find?_eq_none]
        intro x hx
        have : x.key ∈ rest.map (·.key) := List.mem_map_of_mem hx
        simp only [decide_eq_true_eq]
        intro hxk
        exact h.1 (by rwa [ht, ← hk, ← hxk])
      · have : ¬ temp.key = k := fun he => hk (he.symm.trans ht)
        simp [hk, this]
    · rw [List.eraseP_cons_of_neg (by simpa using ht)]
      by_cases hk : temp.key = k
      · have : ¬ k = key := fun he => ht (hk.trans he)
        simp [hk, this]
      · simp [hk, ih h.2]

theorem removeHead_ok (dealloc : Bool) (b : Bucket α) : (removeHead dealloc b).Ok := by
  unfold removeHead Bucket.Ok
  cases b.next with
  | nil => exact fun _ => rfl
  | cons next rest => intro hnone; cases hnone

/-! The cases of a removal. -/

section Removal

variable {ht : HashTable α} {i : Nat} {head : HashEl α} {next : List (HashEl α)}

/-- An unused bucket passes for one whose first element is removed. -/
theorem hashRemove_unused (hi : hash key ht = .ok i) (hb : ht.arr[i]? = some ⟨none, next⟩) :
    hashRemove dealloc key ht = (.ok .head, { ht with arr := ht.arr.set i (removeHead dealloc ⟨none, next⟩) }) := by
  apply hashRemove_of_head hi hb
  intro head hsome
  cases hsome

theorem hashRemove_first (hread : Readable dealloc (head :: next)) (hi : hash key ht = .ok i)
    (hb : ht.arr[i]? = some ⟨some head, next⟩) (hkey : head.key = key) :
    hashRemove dealloc key ht =
      (.ok .head, { ht with arr := ht.arr.set i (removeHead dealloc ⟨some head, next⟩) }) := by
  apply hashRemove_of_head hi hb
  intro head' hsome
  cases hsome
  rw [hread.keyIs, decide_eq_true hkey]

theorem hashRemove_linked (hread : Readable dealloc (head :: next)) (hi : hash key ht = .ok i)
    (hb : ht.arr[i]? = some ⟨some head, next⟩) (hkey : head.key ≠ key) (hmem : key ∈ next.map (·.key)) :
    hashRemove dealloc key ht =
      (.ok .linked, { ht with arr := ht.arr.set i ⟨some head, next.eraseP fun x => x.key = key⟩ }) := by
  apply hashRemove_of_linked hi hb
  · rw [hread.keyIs, decide_eq_false hkey]
  · rw [removeNext_ok hread.tail, if_pos hmem]

theorem hashRemove_absent (hread : Readable dealloc (head :: next)) (hi : hash key ht = .ok i)
    (hb : ht.arr[i]? = some ⟨some head, next⟩) (hkey : head.key ≠ key) (hmem : key ∉ next.map (·.key)) :
    hashRemove dealloc key ht = (.ok .absent, ht) := by
  apply hashRemove_of_absent hi hb
  · rw [hread.keyIs, decide_eq_false hkey]
  · rw [removeNext_ok hread.tail, if_neg hmem]

end Removal

end Chains

/-! ## The table as a finite map -/

/-- `m` with `d` at `key`. -/
def updateMap {α : Type} (m : CString → Option α) (key : CString) (d : Option α) : CString → Option α :=
  fun k => if k = key then d else m k

/-- The table uses `n` buckets, each chain holds a key at most once and only keys that hash to its index,
no element was freed, and the elements are those of `m`. -/
structure HashTable.Refines {α : Type} (n : Nat) (ht : HashTable α) (m : CString → Option α) : Prop where
  pos : 0 < n
  size : ht.size.toNat = n
  length : n ≤ ht.arr.length
  ok : ∀ (i : Nat) (b : Bucket α), ht.arr[i]? = some b → b.Ok
  nodup : ∀ (i : Nat) (b : Bucket α), ht.arr[i]? = some b → (b.chain.map (·.key)).Nodup
  index : ∀ (i : Nat) (b : Bucket α), ht.arr[i]? = some b → ∀ el ∈ b.chain, hash el.key ht = .ok i
  live : ∀ (i : Nat) (b : Bucket α), ht.arr[i]? = some b → ∀ el ∈ b.chain, el.freed = false
  find : ∀ (k : CString) (i : Nat) (b : Bucket α), hash k ht = .ok i → ht.arr[i]? = some b →
    (b.chain.find? fun x => x.key = k) = (m k).map fun d => ⟨k, d, false⟩

namespace HashTable.Refines

variable {α : Type} {n : Nat} {ht : HashTable α} {m : CString → Option α} {key : CString}

/-- A new table is empty. It uses as many buckets as its 16-bit size says. -/
theorem init_of_size (size : UInt32) (hpos : 0 < size.toUInt16.toNat) :
    (initHash α size).Refines size.toUInt16.toNat fun _ => none := by
  have hempty : ∀ (i : Nat) (b : Bucket α), (initHash α size).arr[i]? = some b → b = ⟨none, []⟩ := by
    intro i b hb
    simp only [initHash, List.getElem?_replicate] at hb
    split at hb
    · cases hb; rfl
    · cases hb
  refine ⟨hpos, rfl, ?_, fun i b hb => ?_, fun i b hb => ?_, fun i b hb => ?_,
    fun i b hb => ?_, fun k i b _ hb => ?_⟩
  · rw [initHash, List.length_replicate, UInt32.toNat_toUInt16]
    exact Nat.mod_le _ _
  all_goals
    rw [hempty i b hb]
    simp [Bucket.Ok, Bucket.chain]

theorem init (size : UInt32) (h1 : 1 ≤ size.toNat) (h2 : size.toNat ≤ 65535) :
    (initHash α size).Refines size.toNat fun _ => none := by
  have hsize : size.toUInt16.toNat = size.toNat := by
    rw [UInt32.toNat_toUInt16]
    omega
  have h := init_of_size (α := α) size (by omega)
  rwa [hsize] at h

/-- Keys with a value that is not negative have a bucket. -/
theorem bucketOf_ok (h : ht.Refines n m) (hk : 0 ≤ atoi key) :
    ∃ i b, hash key ht = .ok i ∧ ht.arr[i]? = some b ∧ bucketOf key ht = (.ok (i, b), ht) := by
  have hsize : ¬ ht.size = 0 := by
    intro h0
    have := h.size
    rw [h0] at this
    have := h.pos
    simp at *
    omega
  have hn : ht.size.toNat < 65536 := ht.size.toNat_lt
  have hlt : (Int.tmod (atoi key) ht.size.toNat % 65536).toNat < ht.arr.length := by
    rw [Int.tmod_eq_emod_of_nonneg hk, h.size]
    have hpos := h.pos
    have hlen := h.length
    have h₁ := Int.emod_nonneg (atoi key) (b := (n : Int)) (by omega)
    have h₂ := Int.emod_lt_of_pos (atoi key) (b := (n : Int)) (by omega)
    rw [h.size] at hn
    omega
  have hash_eq : hash key ht = .ok (Int.tmod (atoi key) ht.size.toNat % 65536).toNat := if_neg hsize
  refine ⟨_, _, hash_eq, List.getElem?_eq_getElem hlt, ?_⟩
  rw [bucketOf, Prog.get_bind, hash_eq, Prog.lift_ok_bind]
  simp only [List.getElem?_eq_getElem hlt]
  rfl

/-- One bucket is replaced. -/
theorem set (h : ht.Refines n m) {i : Nat} {b' : Bucket α} {m' : CString → Option α} (hok : b'.Ok)
    (hnodup : (b'.chain.map (·.key)).Nodup)
    (hindex : ∀ el ∈ b'.chain, hash el.key ht = .ok i) (hlive : ∀ el ∈ b'.chain, el.freed = false)
    (hfind : ∀ k, hash k ht = .ok i →
      (b'.chain.find? fun x => x.key = k) = (m' k).map fun d => ⟨k, d, false⟩)
    (hother : ∀ k, hash k ht ≠ .ok i → m' k = m k) :
    ({ ht with arr := ht.arr.set i b' } : HashTable α).Refines n m' := by
  have hsame : ∀ k, hash k ({ ht with arr := ht.arr.set i b' } : HashTable α) = hash k ht := fun k => rfl
  refine ⟨h.pos, h.size, by simpa using h.length, fun j c hc => ?_, fun j c hc => ?_,
    fun j c hc => ?_, fun j c hc => ?_, fun k j c hk hc => ?_⟩
  · rcases getElem?_set_cases hc with ⟨rfl, rfl⟩ | ⟨-, hc⟩
    · exact hok
    · exact h.ok j c hc
  · rcases getElem?_set_cases hc with ⟨rfl, rfl⟩ | ⟨-, hc⟩
    · exact hnodup
    · exact h.nodup j c hc
  · rcases getElem?_set_cases hc with ⟨rfl, rfl⟩ | ⟨-, hc⟩
    · exact hindex
    · exact h.index j c hc
  · rcases getElem?_set_cases hc with ⟨rfl, rfl⟩ | ⟨-, hc⟩
    · exact hlive
    · exact h.live j c hc
  · rw [hsame] at hk
    rcases getElem?_set_cases hc with ⟨rfl, rfl⟩ | ⟨hj, hc⟩
    · exact hfind k hk
    · rw [hother k (fun hk' => hj (Except.ok.inj (hk.symm.trans hk')))]
      exact h.find k j c hk hc

/-- The walk of `hash_find` through the bucket of a key. -/
theorem hashFind_bucket (h : ht.Refines n m) {i : Nat} {b : Bucket α} (hi : hash key ht = .ok i)
    (hb : ht.arr[i]? = some b) (hrun : bucketOf key ht = (.ok (i, b), ht)) (dealloc : Bool) :
    hashFind dealloc key ht = (.ok ((m key).map fun d => ⟨key, d, false⟩), ht) := by
  have hfind := h.find key i b hi hb
  have hread : Readable dealloc b.chain := fun el hel => by rw [h.live i b hb el hel, Bool.and_false]
  rw [hashFind, Prog.bind_ok hrun]
  rcases b with ⟨_ | head, next⟩
  · rw [Bucket.chain, h.ok i _ hb rfl] at hfind
    simp only [Option.toList_none, List.append_nil, List.find?_nil] at hfind
    rw [← hfind]
    rfl
  · have hfound : findNext dealloc key (head :: next) = .ok ((m key).map fun d => ⟨key, d, false⟩) := by
      rw [findNext_ok (show Readable dealloc (head :: next) from hread), ← hfind]
      rfl
    simp only [hfound]
    rfl

/-- `hash_find` looks the key up in the map. -/
theorem hashFind_ok (h : ht.Refines n m) (hk : 0 ≤ atoi key) (dealloc : Bool) :
    hashFind dealloc key ht = (.ok ((m key).map fun d => ⟨key, d, false⟩), ht) := by
  obtain ⟨i, b, hi, hb, hrun⟩ := h.bucketOf_ok hk
  exact h.hashFind_bucket hi hb hrun dealloc

/-- A lookup that completes, also of a negative number, looks the key up in the map. -/
theorem hashFind_of_ok (h : ht.Refines n m) {dealloc : Bool} {r : Option (HashEl α)} {ht' : HashTable α}
    (hrun : hashFind dealloc key ht = (.ok r, ht')) :
    r = ((m key).map fun d => ⟨key, d, false⟩) ∧ ht' = ht := by
  have hrun' := hrun
  rw [hashFind] at hrun'
  obtain ⟨⟨i, b⟩, ht₁, hbucket, -⟩ := Prog.bind_eq_ok hrun'
  have hbucket' := hbucket
  rw [bucketOf, Prog.get_bind] at hbucket'
  obtain ⟨j, hj, hbucket'⟩ := Prog.lift_bind_eq_ok hbucket'
  cases hc : ht.arr[j]? with
  | none => simp [hc] at hbucket'
  | some c =>
    simp only [hc, Prog.pure_apply] at hbucket'
    cases hbucket'
    rw [h.hashFind_bucket hj hc hbucket] at hrun
    cases hrun
    exact ⟨rfl, rfl⟩

/-- `hash_insert` sets the key. -/
theorem hashInsert_ok (h : ht.Refines n m) (hk : 0 ≤ atoi key) (dealloc : Bool) (data : α) :
    ∃ ht', hashInsert dealloc key data ht = (.ok (), ht') ∧
      ht'.Refines n (updateMap m key (some data)) := by
  obtain ⟨i, b, hi, hb, hrun⟩ := h.bucketOf_ok hk
  have hread : Readable dealloc b.chain := fun el hel => by rw [h.live i b hb el hel, Bool.and_false]
  -- whichever case applies, the chain has the new element in the place of the old one
  suffices hset : ∃ b', hashInsert dealloc key data ht =
      (.ok (), { ht with arr := ht.arr.set i b' }) ∧ b'.head ≠ none ∧
      b'.chain = putKey ⟨key, data, false⟩ b.chain by
    obtain ⟨b', hrun', hne, hchain⟩ := hset
    refine ⟨_, hrun', h.set (fun h0 => absurd h0 hne) ?_ ?_ ?_ ?_ ?_⟩
    · rw [hchain]
      exact nodup_putKey (h.nodup i b hb)
    · intro el hel
      rw [hchain] at hel
      rcases mem_putKey hel with rfl | hel
      · exact hi
      · exact h.index i b hb el hel
    · intro el hel
      rw [hchain] at hel
      rcases mem_putKey hel with rfl | hel
      · rfl
      · exact h.live i b hb el hel
    · intro k hk'
      rw [hchain, find_putKey, updateMap]
      by_cases hkey : k = key
      · simp [hkey]
      · rw [if_neg hkey, if_neg hkey, h.find k i b hk' hb]
    · intro k hk'
      have hkey : ¬ k = key := fun he => hk' (he ▸ hi)
      rw [updateMap, if_neg hkey]
  obtain ⟨head, next, hput⟩ := List.exists_cons_of_ne_nil (putKey_ne_nil ⟨key, data, false⟩ b.chain)
  have hins := insertNext_ok hread ⟨key, data, false⟩
  rw [hput, ← (h.ok i b hb).walked_eq] at hins
  exact ⟨⟨some head, next⟩, hashInsert_of_walk hi hb hins, by simp, hput.symm⟩

/-- The elements of a bucket are in the map. -/
theorem mem_map (h : ht.Refines n m) {i : Nat} {b : Bucket α} (hb : ht.arr[i]? = some b) {el : HashEl α}
    (hel : el ∈ b.chain) : (m el.key).isSome = true := by
  have hfind := h.find el.key i b (h.index i b hb el hel) hb
  have hsome : (b.chain.find? fun x => x.key = el.key).isSome = true :=
    List.find?_isSome.mpr ⟨el, hel, by simp⟩
  rw [hfind] at hsome
  simpa using hsome

/-- The bucket of a key that shares it with no other key of the map. -/
theorem chain_length_le_one (h : ht.Refines n m) {i : Nat} {b : Bucket α} (hi : hash key ht = .ok i)
    (hb : ht.arr[i]? = some b)
    (halone : ∀ k, (m k).isSome = true → hash k ht = hash key ht → k = key) : b.chain.length ≤ 1 := by
  have hall : ∀ el ∈ b.chain, el.key = key := fun el hel =>
    halone el.key (h.mem_map hb hel) ((h.index i b hb el hel).trans hi.symm)
  have hnodup := h.nodup i b hb
  rcases hchain : b.chain with _ | ⟨x, _ | ⟨y, rest⟩⟩
  · simp
  · simp
  · rw [hchain] at hall hnodup
    have hx := hall x (by simp)
    have hy := hall y (by simp)
    simp [hx, hy] at hnodup

/-- `hash_remove` takes the key out. With deallocation it must not share its bucket, or an element that
stays may be freed. -/
theorem hashRemove_ok (h : ht.Refines n m) (hk : 0 ≤ atoi key) (dealloc : Bool)
    (halone : dealloc = true → ∀ k, (m k).isSome = true → hash k ht = hash key ht → k = key) :
    ∃ r ht', hashRemove dealloc key ht = (.ok r, ht') ∧ ht'.Refines n (updateMap m key none) ∧
      (dealloc = true → r ≠ .linked) := by
  obtain ⟨i, b, hi, hb, hrun⟩ := h.bucketOf_ok hk
  have hone : dealloc = true → b.chain.length ≤ 1 := fun hd => h.chain_length_le_one hi hb (halone hd)
  suffices hset : ∃ r b', hashRemove dealloc key ht =
      (.ok r, { ht with arr := ht.arr.set i b' }) ∧ b'.Ok ∧
      (b'.chain = b.chain.eraseP fun x => x.key = key) ∧ (dealloc = true → r ≠ .linked) by
    obtain ⟨r, b', hrun', hok, hchain, hr⟩ := hset
    refine ⟨r, _, hrun', h.set hok ?_ ?_ ?_ ?_ ?_, hr⟩
    · rw [hchain]
      exact nodup_eraseP (h.nodup i b hb) key
    · intro el hel
      rw [hchain] at hel
      exact h.index i b hb el (List.mem_of_mem_eraseP hel)
    · intro el hel
      rw [hchain] at hel
      exact h.live i b hb el (List.mem_of_mem_eraseP hel)
    · intro k hk'
      rw [hchain, find_eraseP (h.nodup i b hb), updateMap]
      by_cases hkey : k = key
      · simp [hkey]
      · rw [if_neg hkey, if_neg hkey, h.find k i b hk' hb]
    · intro k hk'
      have hkey : ¬ k = key := fun he => hk' (he ▸ hi)
      rw [updateMap, if_neg hkey]
  have hself : { ht with arr := ht.arr.set i b } = ht := by
    obtain ⟨hlt, rfl⟩ := List.getElem?_eq_some_iff.mp hb
    rw [List.set_getElem_self]
  have hread : Readable dealloc b.chain := fun el hel => by rw [h.live i b hb el hel, Bool.and_false]
  rcases b with ⟨_ | head, next⟩
  · have hnil : next = [] := h.ok i _ hb rfl
    subst hnil
    exact ⟨.head, ⟨none, []⟩, hashRemove_unused hi hb, fun _ => rfl, rfl, fun _ => by simp⟩
  · by_cases hhead : head.key = key
    · refine ⟨.head, removeHead dealloc ⟨some head, next⟩, hashRemove_first hread hi hb hhead, removeHead_ok _ _, ?_,
        fun _ => by simp⟩
      cases next with
      | nil => simp [Bucket.chain, removeHead, hhead]
      | cons x rest =>
        -- a second element: then nothing is deallocated
        have hd : dealloc = false := by
          cases dealloc with
          | false => rfl
          | true => have := hone rfl; simp [Bucket.chain] at this
        simp [Bucket.chain, removeHead, hhead, hd]
    · by_cases hmem : key ∈ next.map (·.key)
      · refine ⟨.linked, ⟨some head, next.eraseP fun x => x.key = key⟩, hashRemove_linked hread hi hb hhead hmem,
          fun h0 => absurd h0 (by simp), by simp [Bucket.chain, hhead], fun hd => ?_⟩
        obtain ⟨x, hx, -⟩ := List.mem_map.mp hmem
        have hlen := hone hd
        have hpos := List.length_pos_of_mem hx
        simp only [Bucket.chain, Option.toList_some, List.singleton_append, List.length_cons] at hlen
        omega
      · refine ⟨.absent, ⟨some head, next⟩, ?_, fun h0 => absurd h0 (by simp), ?_, fun _ => by simp⟩
        · rw [hself]
          exact hashRemove_absent hread hi hb hhead hmem
        · have hnone : ∀ x ∈ head :: next, ¬ decide (x.key = key) = true := by
            intro x hx
            rcases List.mem_cons.mp hx with rfl | hx
            · simpa using hhead
            · simp only [decide_eq_true_eq]
              exact fun he => hmem (he ▸ List.mem_map_of_mem hx)
          exact (List.eraseP_of_forall_not hnone).symm

end HashTable.Refines

/-! ## Numbers as keys -/

/-- The map with the entries `xs`, each under the key that `sprintf` makes of its number. -/
def numbered {α : Type} (xs : List (Nat × α)) (k : CString) : Option α :=
  (xs.find? fun x => sprintfU x.1 = k).map (·.2)

section Numbered

variable {α : Type} {xs ys : List (Nat × α)} {x : Nat × α}

theorem numbered_cons (x : Nat × α) (xs : List (Nat × α)) :
    numbered (x :: xs) = updateMap (numbered xs) (sprintfU x.1) (some x.2) := by
  funext k
  rw [numbered, List.find?_cons, updateMap, numbered]
  by_cases hk : k = sprintfU x.1
  · simp [hk]
  · have hk' : ¬ sprintfU x.1 = k := fun h => hk h.symm
    simp [hk, hk']

theorem numbered_eq_none {n : Nat} (hn : n ∉ xs.map (·.1)) : numbered xs (sprintfU n) = none := by
  rw [numbered, Option.map_eq_none_iff, List.find?_eq_none]
  intro y hy
  simp only [decide_eq_true_eq]
  intro he
  exact hn (List.mem_map.mpr ⟨y, hy, sprintfU_inj he⟩)

theorem mem_of_numbered {k : CString} {d : α} (h : numbered xs k = some d) :
    ∃ n, (n, d) ∈ xs ∧ k = sprintfU n := by
  obtain ⟨y, hy, rfl⟩ := Option.map_eq_some_iff.mp h
  have hk := List.find?_some hy
  exact ⟨y.1, List.mem_of_find?_eq_some hy, (of_decide_eq_true hk).symm⟩

theorem numbered_of_mem (h : (xs.map (·.1)).Nodup) (hx : x ∈ xs) : numbered xs (sprintfU x.1) = some x.2 := by
  induction xs with
  | nil => cases hx
  | cons y xs ih =>
    rw [numbered_cons, updateMap]
    rw [List.map_cons, List.nodup_cons] at h
    rcases List.mem_cons.mp hx with rfl | hx
    · rw [if_pos rfl]
    · have hne : ¬ sprintfU x.1 = sprintfU y.1 := by
        intro he
        exact h.1 (List.mem_map.mpr ⟨x, hx, sprintfU_inj he⟩)
      rw [if_neg hne]
      exact ih h.2 hx

theorem numbered_skip {k : CString} (hk : k ≠ sprintfU x.1) :
    numbered (xs ++ x :: ys) k = numbered (xs ++ ys) k := by
  have hk' : ¬ sprintfU x.1 = k := fun he => hk he.symm
  rw [numbered, numbered, List.find?_append, List.find?_append, List.find?_cons_of_neg (by simpa using hk')]

/-- An entry is removed. -/
theorem numbered_remove (h : ((xs ++ x :: ys).map (·.1)).Nodup) :
    updateMap (numbered (xs ++ x :: ys)) (sprintfU x.1) none = numbered (xs ++ ys) := by
  rw [List.map_append, List.map_cons] at h
  funext k
  rw [updateMap]
  by_cases hk : k = sprintfU x.1
  · rw [if_pos hk, hk, numbered_eq_none]
    rw [List.map_append]
    exact (List.nodup_middle.mp h).notMem
  · rw [if_neg hk, numbered_skip hk]

/-- The data of an entry is replaced. -/
theorem numbered_replace (h : ((xs ++ x :: ys).map (·.1)).Nodup) (d : α) :
    updateMap (numbered (xs ++ x :: ys)) (sprintfU x.1) (some d) = numbered (xs ++ (x.1, d) :: ys) := by
  have h' : ((xs ++ (x.1, d) :: ys).map (·.1)).Nodup := by
    rw [List.map_append, List.map_cons] at h ⊢
    exact h
  funext k
  rw [updateMap]
  by_cases hk : k = sprintfU x.1
  · rw [if_pos hk, hk]
    exact (numbered_of_mem (x := (x.1, d)) h' (by simp)).symm
  · rw [if_neg hk, numbered_skip hk, numbered_skip (x := (x.1, d)) hk]

end Numbered

/-! ## Runs -/

/-- The data of the last insertion of `key`, if no later call removed it. -/
def HashOp.lastData {α : Type} (ops : List (HashOp α)) (key : CString) : Option α :=
  ops.foldl (fun d op => match op with
    | .insert k data => if k = key then some data else d
    | .remove k => if k = key then none else d) none

theorem HashOp.lastData_append {α : Type} (ops : List (HashOp α)) (op : HashOp α) :
    HashOp.lastData (ops ++ [op]) = updateMap (HashOp.lastData ops) op.key
      (match op with
        | .insert _ data => some data
        | .remove _ => none) := by
  funext k
  cases op with
  | insert k' data => by_cases hk : k' = k <;> simp [lastData, updateMap, HashOp.key, hk, eq_comm]
  | remove k' => by_cases hk : k' = k <;> simp [lastData, updateMap, HashOp.key, hk, eq_comm]

/-- **The hash table is a finite map.** Whatever the calls, with deallocation left out, a search finds
the last data inserted and not removed, and the chains are well formed. -/
theorem hash_run_finiteMap {α : Type} (size : UInt32) (h1 : 1 ≤ size.toNat) (h2 : size.toNat ≤ 65535)
    (ops : List (HashOp α)) (hops : ∀ op ∈ ops, 0 ≤ atoi op.key) :
    ∃ rs ht, Prog.runAll (hashOp false) ops (initHash α size) = (.ok rs, ht) ∧
      (∀ key, 0 ≤ atoi key → hashFind false key ht =
        (.ok ((HashOp.lastData ops key).map fun d => ⟨key, d, false⟩), ht)) ∧
      ∀ i b, ht.arr[i]? = some b → (b.chain.map (·.key)).Nodup ∧
        ∀ el ∈ b.chain, hash el.key ht = .ok i := by
  have hmeets : Prog.Meets (hashOp false) (fun _ op => 0 ≤ atoi op.key) ops (initHash α size) :=
    Prog.meets_of_forall hops _
  obtain ⟨rs, ht, hrun, href⟩ := Prog.runAll_inv
    (fun ops _ ht => ht.Refines size.toNat (HashOp.lastData ops))
    (fun ops _ ht op _ href hop => by
      rw [HashOp.lastData_append]
      cases op with
      | insert key data =>
        obtain ⟨ht', hr, href'⟩ := href.hashInsert_ok hop false data
        exact ⟨(), ht', hr, href'⟩
      | remove key =>
        obtain ⟨r, ht', hr, href', -⟩ := href.hashRemove_ok hop false (by simp)
        exact ⟨(), ht', Prog.bind_ok hr, href'⟩)
    (.init size h1 h2) hmeets
  exact ⟨rs, ht, hrun, fun key hk => href.hashFind_ok hk false,
    fun i b hb => ⟨href.nodup i b hb, href.index i b hb⟩⟩

/-- Three buckets; the keys 1, 4 and 01 collide. -/
theorem hash_run_finiteMap_collide :
    ∃ rs ht, Prog.runAll (hashOp false)
        [.insert ['1'] 10, .insert ['4'] 20, .insert ['0', '1'] 30, .remove ['1'], .insert ['4'] 40]
        (initHash Nat 3) = (.ok rs, ht) ∧
      (∀ key, 0 ≤ atoi key → hashFind false key ht =
        (.ok ((HashOp.lastData [.insert ['1'] 10, .insert ['4'] 20, .insert ['0', '1'] 30,
          .remove ['1'], .insert ['4'] 40] key).map fun d => ⟨key, d, false⟩), ht)) ∧
      ∀ i b, ht.arr[i]? = some b → (b.chain.map (·.key)).Nodup ∧
        ∀ el ∈ b.chain, hash el.key ht = .ok i :=
  hash_run_finiteMap 3 (by decide) (by decide) _ (by decide)

end SomeDB
