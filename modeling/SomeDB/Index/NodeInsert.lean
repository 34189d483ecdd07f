import SomeDB.Index.PageCodec

/-!
# Insertion into a node

`insertIntoVecs_spec` says what `insertIntoNode` does to the two arrays of a node, whatever the order
of its keys: the pair is put in at the position `placeIn`, whose neighbours compare as they should
(`PlaceOf`), and nothing else changes.
-/

namespace SomeDB

open Lib

/-- `xs` with `x` put in before the element at `i`. -/
def putAt {α : Type} (xs : List α) (i : Nat) (x : α) : List α := xs.take i ++ x :: xs.drop i

@[simp] theorem putAt_length {α : Type} (xs : List α) {i : Nat} (x : α) (h : i ≤ xs.length) :
    (putAt xs i x).length = xs.length + 1 := by
  simp [putAt]; omega

theorem mem_putAt {α : Type} {xs : List α} {i : Nat} {x y : α} :
    y ∈ putAt xs i x ↔ y = x ∨ y ∈ xs := by
  have h : y ∈ xs ↔ y ∈ xs.take i ∨ y ∈ xs.drop i := by
    rw [← List.mem_append, List.take_append_drop]
  simp only [putAt, List.mem_append, List.mem_cons, h]
  exact or_left_comm

theorem putAt_end {α : Type} (xs : List α) (x : α) : putAt xs xs.length x = xs ++ [x] := by
  simp [putAt]

theorem putAt_map {α β : Type} (f : α → β) (xs : List α) (i : Nat) (x : α) :
    (putAt xs i x).map f = putAt (xs.map f) i (f x) := by
  simp [putAt]

/-- The position at which `insertIntoNode` puts a key in: behind all others if the last one is not above
it, else before the first one that is not below it. -/
def placeIn (key : BTreeKey) (keys : List BTreeKey) : Nat :=
  if keys.getLast?.all fun k => 0 ≤ cmpKeys key k then keys.length
  else keys.findIdx fun k => cmpKeys key k ≤ 0

theorem shiftRight_spec {α : Type} (m : Nat) (as bs : List α) (j : Nat) (prev : α)
    (ha : as.length = j + 2) (hb : m ≤ bs.length) :
    shiftRight (as ++ bs) j prev m = .ok (as ++ (prev :: bs).take m ++ bs.drop m) := by
  induction m generalizing as bs j prev with
  | zero => simp [shiftRight]
  | succ m ih =>
    cases bs with
    | nil => simp at hb
    | cons b bs =>
      have hget : (as ++ b :: bs)[j + 2]? = some b := by
        rw [List.getElem?_append_right (by omega)]; simp [ha]
      have hset : (as ++ b :: bs).set (j + 2) prev = (as ++ [prev]) ++ bs := by
        rw [List.set_append_right _ _ (by omega)]; simp [ha]
      simp only [shiftRight, vecAt_eq hget, bind, Except.bind, hset]
      rw [ih (as ++ [prev]) bs (j + 1) b (by simp [ha]) (by simpa using hb)]
      simp

/-- The double loop puts one element in and moves the rest by one. -/
theorem shiftIn_spec {α : Type} (xs : List α) (d x : α) {i : Nat} (h : i < xs.length) :
    shiftIn (xs ++ [d]) i xs.length x = .ok (putAt xs (i + 1) x) := by
  have hlen : (xs ++ [d]).length = xs.length + 1 := by simp
  obtain ⟨prev, hprev⟩ : ∃ prev, (xs ++ [d])[i + 1]? = some prev :=
    ⟨_, List.getElem?_eq_getElem (by omega)⟩
  have hset : (xs ++ [d]).set (i + 1) x =
      ((xs ++ [d]).take (i + 1) ++ [x]) ++ (xs ++ [d]).drop (i + 2) := by
    rw [List.set_eq_take_append_cons_drop, if_pos (by omega)]; simp
  have hdrop : prev :: (xs ++ [d]).drop (i + 2) = xs.drop (i + 1) ++ [d] := by
    have h₁ : (xs ++ [d]).drop (i + 1) = prev :: (xs ++ [d]).drop (i + 2) := by
      rw [List.drop_eq_getElem_cons (by omega)]
      rw [List.getElem?_eq_getElem (by omega)] at hprev
      rw [Option.some.inj hprev]
    rw [← h₁, List.drop_append_of_le_length (by omega)]
  simp only [shiftIn, vecAt_eq hprev, bind, Except.bind, hset]
  have ha : ((xs ++ [d]).take (i + 1) ++ [x]).length = i + 2 := by
    rw [List.length_append, List.length_take]; simp; omega
  have hb : ((xs ++ [d]).drop (i + 2)).length = xs.length - 1 - i := by
    rw [List.length_drop]; omega
  have hn : (xs.drop (i + 1)).length = xs.length - 1 - i := by rw [List.length_drop]; omega
  have hz : ((xs ++ [d]).drop (i + 2)).drop (xs.drop (i + 1)).length = [] :=
    List.drop_eq_nil_of_le (by omega)
  rw [shiftRight_spec _ _ _ _ _ ha (by omega), hdrop, ← hn, List.take_left, hz,
    List.take_append_of_le_length (by omega)]
  simp [putAt]

/-- The position that the search loop finds: the first one whose key is not below the new one. It exists
because the key is above the first key and below the last one. -/
theorem insertMiddle_spec {α : Type} (key : BTreeKey) (val : α) {keys : List BTreeKey}
    {vals : List α} (dk : BTreeKey) (dv : α) (hv : vals.length = keys.length) :
    ∀ (m i : Nat), i + m = keys.length →
      (∀ a k, a ≤ i → keys[a]? = some k → 0 < cmpKeys key k) →
      (∀ k, keys[keys.length - 1]? = some k → cmpKeys key k < 0) → i < keys.length →
      ∃ j, 0 < j ∧ j < keys.length ∧
        insertMiddle key val keys.length (keys ++ [dk]) (vals ++ [dv]) i m =
          .ok (putAt keys j key, putAt vals j val) ∧
        (∀ a k, a < j → keys[a]? = some k → 0 < cmpKeys key k) ∧
        (∀ k, keys[j]? = some k → cmpKeys key k ≤ 0) := by
  intro m
  induction m with
  | zero => intro i hi _ _ hlt; omega
  | succ m ih =>
    intro i hi hcur hlast hlt
    obtain ⟨cur, hc⟩ : ∃ k, keys[i]? = some k := ⟨_, List.getElem?_eq_getElem hlt⟩
    have hpos := hcur i cur (Nat.le_refl i) hc
    have hne : i + 1 < keys.length := by
      rcases Nat.lt_or_ge (i + 1) keys.length with h | h
      · exact h
      · have := hlast cur (by rw [show keys.length - 1 = i by omega]; exact hc); omega
    obtain ⟨nxt, hn⟩ : ∃ k, keys[i + 1]? = some k := ⟨_, List.getElem?_eq_getElem hne⟩
    have hc' : (keys ++ [dk])[i]? = some cur := by rw [List.getElem?_append_left hlt, hc]
    have hn' : (keys ++ [dk])[i + 1]? = some nxt := by rw [List.getElem?_append_left hne, hn]
    simp only [insertMiddle, vecAt_eq hc', vecAt_eq hn', bind, Except.bind]
    by_cases hle : cmpKeys key nxt ≤ 0
    · refine ⟨i + 1, Nat.succ_pos i, hne, ?_, ?_, ?_⟩
      · rw [if_pos ⟨hpos, hle⟩]
        have hsv := shiftIn_spec vals dv val (i := i) (by omega)
        rw [hv] at hsv
        rw [shiftIn_spec keys dk key hlt, hsv]
      · intro a k ha hk
        exact hcur a k (Nat.le_of_lt_succ ha) hk
      · intro k hk; rw [hn] at hk; cases hk; exact hle
    · rw [if_neg (by omega)]
      refine ih (i + 1) (by omega) (fun a k ha hk => ?_) hlast hne
      rcases Nat.lt_or_eq_of_le ha with hlt' | rfl
      · exact hcur a k (Nat.le_of_lt_succ hlt') hk
      · rw [hn] at hk; cases hk; omega

/-- The position is the first key that is not below the new one. -/
theorem placeIn_eq_of_lt {key : BTreeKey} {keys : List BTreeKey} {last : BTreeKey} {j : Nat}
    (hlast : keys[keys.length - 1]? = some last) (hlt : cmpKeys key last < 0) (hj : j < keys.length)
    (hlo : ∀ a k, a < j → keys[a]? = some k → 0 < cmpKeys key k)
    (hhi : ∀ k, keys[j]? = some k → cmpKeys key k ≤ 0) : placeIn key keys = j := by
  have hnot : ¬ (keys.getLast?.all fun k => 0 ≤ cmpKeys key k) = true := by
    rw [List.getLast?_eq_getElem?, hlast]
    simpa using hlt
  rw [placeIn, if_neg hnot, List.findIdx_eq hj]
  refine ⟨by simpa using hhi _ (List.getElem?_eq_getElem hj), fun a ha => ?_⟩
  simpa using hlo a _ ha (List.getElem?_eq_getElem (by omega))

/-- What `insertIntoNode` does to the arrays of a node: the pair is put in at a position `i` with
nothing above it before and nothing below it after. -/
theorem insertIntoVecs_spec {α : Type} [Inhabited α] (key : BTreeKey) (val : α)
    {keys : List BTreeKey} {vals : List α} (hv : vals.length = keys.length)
    (hn : keys.length < 65535) :
    ∃ i, i ≤ keys.length ∧
      insertIntoVecs key val keys vals = .ok (putAt keys i key, putAt vals i val) ∧
      (∀ k, i ≠ 0 → keys[i - 1]? = some k → 0 ≤ cmpKeys key k) ∧
      (∀ k, keys[i]? = some k → cmpKeys key k ≤ 0) ∧ i = placeIn key keys := by
  have hk : resize keys (keys.length + 1) = keys ++ [default] := by
    simp [resize, List.take_of_length_le]
  have hvr : resize vals (keys.length + 1) = vals ++ [default] := by
    rw [← hv]; simp [resize, List.take_of_length_le]
  have hm : keys.length % 65536 = keys.length := by omega
  simp only [insertIntoVecs, hm, hk, hvr]
  rcases hks : keys with _ | ⟨first, rest⟩
  · -- the only key of an empty node is the value-initialised one, to which every key is equal
    subst hks
    have : vals = [] := List.eq_nil_of_length_eq_zero hv
    subst this
    refine ⟨0, by simp, ?_, by simp, by simp, rfl⟩
    have h0 : cmpKeys key default = 0 :=
      BTreeKey.cmpKeys_eq_zero.mpr (.inr List.nil_prefix)
    simp [vecAt, h0, putAt, bind, Except.bind]
  · rw [← hks]
    have hpos : 0 < keys.length := by simp [hks]
    obtain ⟨last, hlast⟩ : ∃ k, keys[keys.length - 1]? = some k :=
      ⟨_, List.getElem?_eq_getElem (by omega)⟩
    have hf : keys[0]? = some first := by simp [hks]
    have hf' : (keys ++ [default])[0]? = some first := by
      rw [List.getElem?_append_left hpos, hf]
    have hl' : (keys ++ [default])[keys.length - 1]? = some last := by
      rw [List.getElem?_append_left (by omega), hlast]
    simp only [vecAt_eq hf', if_neg (show ¬ keys.length = 0 by omega), vecAt_eq hl', bind,
      Except.bind]
    by_cases h₁ : cmpKeys key last ≥ 0
    · refine ⟨keys.length, Nat.le_refl _, ?_, ?_, by simp, ?_⟩
      · rw [if_pos h₁]
        have e₁ : (keys ++ [default]).set ((keys ++ [default]).length - 1) key = keys ++ [key] := by
          simp
        have e₂ : (vals ++ [default]).set ((vals ++ [default]).length - 1) val = vals ++ [val] := by
          simp
        rw [e₁, e₂, putAt_end, ← hv, putAt_end]
      · intro k _ hk'; rw [hlast] at hk'; cases hk'; exact h₁
      · rw [placeIn, List.getLast?_eq_getElem?, hlast, if_pos (by simpa using h₁)]
    · rw [if_neg h₁]
      by_cases h₂ : cmpKeys key first ≤ 0
      · have hfirst : ∀ k, keys[0]? = some k → cmpKeys key k ≤ 0 := by
          intro k hk'; rw [hf] at hk'; cases hk'; exact h₂
        refine ⟨0, by omega, ?_, by simp, hfirst, ?_⟩
        · simp [h₂, putAt]
        · exact (placeIn_eq_of_lt hlast (by omega) hpos (fun a _ ha => absurd ha (by omega)) hfirst).symm
      · rw [if_neg h₂]
        obtain ⟨j, hj0, hj, hrun, hlo, hhi⟩ := insertMiddle_spec key val default default hv keys.length 0
          (by omega)
          (fun a k ha hk' => by
            obtain rfl : a = 0 := by omega
            rw [hf] at hk'; cases hk'; omega)
          (fun k hk' => by rw [hlast] at hk'; cases hk'; omega) hpos
        refine ⟨j, by omega, hrun, fun k _ hk' => ?_, hhi, ?_⟩
        · exact Int.le_of_lt (hlo (j - 1) k (by omega) hk')
        · exact (placeIn_eq_of_lt hlast (by omega) hj hlo hhi).symm

/-- The pair goes in at `i`: nothing above it before, nothing below it after. -/
def PlaceOf (key : BTreeKey) (keys : List BTreeKey) (i : Nat) : Prop :=
  i ≤ keys.length ∧ (∀ k, i ≠ 0 → keys[i - 1]? = some k → 0 ≤ cmpKeys key k) ∧
    (∀ k, keys[i]? = some k → cmpKeys key k ≤ 0) ∧ i = placeIn key keys

namespace BTreePage

theorem insertChild_ok {n : BTreePage} {cs : List PageId} (hv : n.values = .children cs)
    (hc : n.valCount = n.keys.length) (hl : n.keys.length < 65535) (key : BTreeKey) (pid : PageId) :
    ∃ i, PlaceOf key n.keys i ∧ n.insertChild key pid =
      .ok { n with keys := putAt n.keys i key, values := .children (putAt cs i pid) } := by
  have hcs : cs.length = n.keys.length := (valCount_children hv).symm.trans hc
  obtain ⟨i, hi, hins, hlo, hhi⟩ := insertIntoVecs_spec key pid hcs hl
  exact ⟨i, ⟨hi, hlo, hhi⟩, by simp [insertChild, internalChildren, hv, hins, bind, Except.bind]⟩

theorem insertRecord_ok {n : BTreePage} {rs : List RID} (hv : n.values = .records rs)
    (hc : n.valCount = n.keys.length) (hl : n.keys.length < 65535) (key : BTreeKey) (val : RID) :
    ∃ i, PlaceOf key n.keys i ∧ n.insertRecord key val =
      .ok { n with keys := putAt n.keys i key, values := .records (putAt rs i val) } := by
  have hrs : rs.length = n.keys.length := (valCount_records hv).symm.trans hc
  obtain ⟨i, hi, hins, hlo, hhi⟩ := insertIntoVecs_spec key val hrs hl
  exact ⟨i, ⟨hi, hlo, hhi⟩, by simp [insertRecord, leafRecords, hv, hins, bind, Except.bind]⟩

end BTreePage

end SomeDB
