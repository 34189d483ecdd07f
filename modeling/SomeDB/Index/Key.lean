import SomeDB.Utils.Shared

/-!
# Index keys (`index_page.hpp`)

`cmpKeys` is `memcmp` over the shorter of the two lengths, so a key compares equal to its prefixes.
Strictly below (`k₁ ≺ k₂`, that is `cmpKeys k₁ k₂ < 0`) is nevertheless transitive: two keys that
differ do so at a position both have (`BTreeKey.lt_trans`).
-/

namespace SomeDB

/-- `BTreeKey`: the bytes of a key. Its length is a `u8`. -/
structure BTreeKey where
  data : List UInt8
  length_le : data.length ≤ 255
  deriving DecidableEq, Repr

/-- `length`. -/
def BTreeKey.length (k : BTreeKey) : Nat := k.data.length

/-- The key `{nullptr, 0}` of a value-initialised vector element. -/
instance : Inhabited BTreeKey := ⟨⟨[], by decide⟩⟩

/-- The sign of `memcmp(s1, s2, n)`. -/
def memcmp : Nat → List UInt8 → List UInt8 → Int
  | n + 1, a :: as, b :: bs => if a < b then -1 else if b < a then 1 else memcmp n as bs
  | _, _, _ => 0

/-- `BTreePage::cmpKeys`. -/
def cmpKeys (key1 key2 : BTreeKey) : Int :=
  memcmp (min key1.length key2.length) key1.data key2.data

theorem memcmp_swap (n : Nat) (as bs : List UInt8) : memcmp n bs as = -memcmp n as bs := by
  induction n generalizing as bs with
  | zero => simp [memcmp]
  | succ n ih =>
    cases as <;> cases bs <;> simp only [memcmp, Int.neg_zero]
    next a as b bs =>
      by_cases h₁ : a < b
      · have h₂ : ¬ b < a := fun h => absurd (UInt8.lt_trans h₁ h) (UInt8.lt_irrefl a)
        simp [h₁, h₂]
      · by_cases h₂ : b < a
        · simp [h₁, h₂]
        · simp only [h₁, h₂, if_false]; exact ih as bs

theorem cmpKeys_swap (k₁ k₂ : BTreeKey) : cmpKeys k₂ k₁ = -cmpKeys k₁ k₂ := by
  rw [cmpKeys, Nat.min_comm, memcmp_swap]; rfl

theorem memcmp_self (n : Nat) (as : List UInt8) : memcmp n as as = 0 := by
  have := memcmp_swap n as as
  omega

@[simp] theorem cmpKeys_self (k : BTreeKey) : cmpKeys k k = 0 := memcmp_self _ _

namespace BTreeKey

/-- `k₁` is strictly below `k₂`. -/
def Lt (k₁ k₂ : BTreeKey) : Prop := cmpKeys k₁ k₂ < 0

instance (k₁ k₂ : BTreeKey) : Decidable (Lt k₁ k₂) := inferInstanceAs (Decidable (_ < _))

theorem cmpKeys_pos {k₁ k₂ : BTreeKey} : 0 < cmpKeys k₁ k₂ ↔ Lt k₂ k₁ := by
  rw [Lt, cmpKeys_swap k₁ k₂]; omega

theorem cmpKeys_nonpos {k₁ k₂ : BTreeKey} : cmpKeys k₁ k₂ ≤ 0 ↔ ¬ Lt k₂ k₁ := by
  rw [← cmpKeys_pos]; omega

theorem lt_irrefl (k : BTreeKey) : ¬ Lt k k := by simp [Lt]

/-- The bytes below the first difference stay equal, so a chain of two strict comparisons is decided
at the first position at which one of them is. -/
theorem memcmp_trans (n m l : Nat) (as bs cs : List UInt8)
    (hl : min n m ≤ l) (h₁ : memcmp n as bs < 0) (h₂ : memcmp m bs cs < 0) :
    memcmp l as cs < 0 := by
  induction n generalizing m l as bs cs with
  | zero => simp [memcmp] at h₁
  | succ n ih =>
    cases as <;> cases bs <;> simp only [memcmp, Int.lt_irrefl] at h₁
    next a as b bs =>
      cases m with
      | zero => simp [memcmp] at h₂
      | succ m =>
        cases cs <;> simp only [memcmp, Int.lt_irrefl] at h₂
        next c cs =>
          cases l with
          | zero => omega
          | succ l =>
            simp only [memcmp]
            by_cases hab : a < b
            · by_cases hbc : b < c
              · simp [UInt8.lt_trans hab hbc]
              · have hcb : ¬ c < b := by intro h; simp [hbc, h] at h₂
                have : b = c := UInt8.le_antisymm (UInt8.not_lt.mp hcb) (UInt8.not_lt.mp hbc)
                simp [← this, hab]
            · have hba : ¬ b < a := by intro h; simp [hab, h] at h₁
              have : a = b := UInt8.le_antisymm (UInt8.not_lt.mp hba) (UInt8.not_lt.mp hab)
              subst this
              by_cases hac : a < c
              · simp [hac]
              · have hca : ¬ c < a := by intro h; simp [hac, h] at h₂
                simp only [hab, hac, hca, if_false] at h₁ h₂ ⊢
                exact ih m l as bs cs (by omega) h₁ h₂

/-- A strict comparison never looks past the end of the shorter key. -/
theorem memcmp_min (n : Nat) (as bs : List UInt8) :
    memcmp n as bs = memcmp (min n (min as.length bs.length)) as bs := by
  induction n generalizing as bs with
  | zero => simp [memcmp]
  | succ n ih =>
    cases as <;> cases bs <;> simp [memcmp]
    next a as b bs =>
      rw [← ih as bs]

theorem cmpKeys_eq_memcmp {k₁ k₂ : BTreeKey} {n : Nat} (h : min k₁.length k₂.length ≤ n) :
    cmpKeys k₁ k₂ = memcmp n k₁.data k₂.data := by
  rw [memcmp_min, cmpKeys]
  simp only [BTreeKey.length] at h ⊢
  rw [Nat.min_eq_right h]

theorem lt_trans {k₁ k₂ k₃ : BTreeKey} (h₁ : Lt k₁ k₂) (h₂ : Lt k₂ k₃) : Lt k₁ k₃ := by
  have h := memcmp_trans _ _ 255 k₁.data k₂.data k₃.data
    (by have := k₂.length_le; simp only [BTreeKey.length]; omega) h₁ h₂
  rwa [Lt, cmpKeys_eq_memcmp (n := 255)
    (by have := k₁.length_le; simp only [BTreeKey.length]; omega)]

theorem lt_asymm {k₁ k₂ : BTreeKey} (h : Lt k₁ k₂) : ¬ Lt k₂ k₁ :=
  fun h' => lt_irrefl _ (lt_trans h h')

theorem Lt.ne {k₁ k₂ : BTreeKey} (h : Lt k₁ k₂) : k₁ ≠ k₂ := by
  rintro rfl; exact lt_irrefl _ h

/-- Two keys compare equal exactly if one is a prefix of the other. -/
theorem memcmp_eq_zero (n : Nat) (as bs : List UInt8) (hn : min as.length bs.length ≤ n) :
    memcmp n as bs = 0 ↔ as <+: bs ∨ bs <+: as := by
  induction n generalizing as bs with
  | zero =>
    have : as = [] ∨ bs = [] := by
      cases as <;> cases bs <;> simp at hn ⊢
    rcases this with rfl | rfl <;> simp [memcmp]
  | succ n ih =>
    cases as with
    | nil => simp [memcmp]
    | cons a as =>
      cases bs with
      | nil => simp [memcmp]
      | cons b bs =>
        simp only [List.length_cons] at hn
        simp only [memcmp, List.cons_prefix_cons]
        by_cases hab : a < b
        · have : a ≠ b := by rintro rfl; exact UInt8.lt_irrefl _ hab
          simp [hab, this, this.symm]
        · by_cases hba : b < a
          · have : a ≠ b := by rintro rfl; exact UInt8.lt_irrefl _ hba
            simp [hab, hba, this, this.symm]
          · have : a = b := UInt8.le_antisymm (UInt8.not_lt.mp hba) (UInt8.not_lt.mp hab)
            simp only [this, UInt8.lt_irrefl, if_false, true_and]
            exact ih as bs (by omega)

theorem cmpKeys_eq_zero {k₁ k₂ : BTreeKey} :
    cmpKeys k₁ k₂ = 0 ↔ k₁.data <+: k₂.data ∨ k₂.data <+: k₁.data :=
  memcmp_eq_zero _ _ _ (Nat.le_refl _)

/-- Neither key is a prefix of the other. -/
def Apart (k₁ k₂ : BTreeKey) : Prop := ¬ k₁.data <+: k₂.data ∧ ¬ k₂.data <+: k₁.data

instance (k₁ k₂ : BTreeKey) : Decidable (Apart k₁ k₂) := inferInstanceAs (Decidable (_ ∧ _))

/-- Keys that are not prefixes of one another are ordered. -/
theorem Apart.lt_or_gt {k₁ k₂ : BTreeKey} (h : Apart k₁ k₂) : Lt k₁ k₂ ∨ Lt k₂ k₁ := by
  have : cmpKeys k₁ k₂ ≠ 0 := fun h0 => (cmpKeys_eq_zero.mp h0).elim h.1 h.2
  have := cmpKeys_swap k₁ k₂
  simp only [Lt]
  omega

end BTreeKey

/-- Keys of one byte. -/
def byteKey (b : UInt8) : BTreeKey := ⟨[b], by simp⟩

end SomeDB
