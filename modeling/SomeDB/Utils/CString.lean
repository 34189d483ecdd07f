import Mathlib.Data.List.TakeWhile
import SomeDB.Utils.Shared

/-!
# C strings

A string is the list of its characters, without the terminating null character. `strcmp` of two strings
is 0 exactly if they are the same list.
-/

namespace SomeDB

/-- A null-terminated string. -/
abbrev CString := List Char

/-- `isspace` in the C locale. -/
def isSpace (c : Char) : Bool := c = ' ' || (9 ≤ c.toNat && c.toNat ≤ 13)

/-- The value of the digits at the beginning of `s`. -/
def digitsValue (s : CString) : Nat := Nat.ofDigitChars 10 (s.takeWhile Char.isDigit) 0

/-- `strtol(s, NULL, 10)`: white space, a sign, digits; what a `long` does not hold is clamped. -/
def strtol (s : CString) : Int :=
  match s.dropWhile isSpace with
  | '-' :: rest => max (-(digitsValue rest : Int)) (-9223372036854775808)
  | '+' :: rest => min (digitsValue rest : Int) 9223372036854775807
  | rest => min (digitsValue rest : Int) 9223372036854775807

/-- `atoi`: the `int` that `strtol` gives. -/
def atoi (s : CString) : Int := (strtol s).bmod 4294967296

/-- `sprintf(s, "%u", n)`, and `"%d"` as long as `n` is below `2 ^ 31`. -/
def sprintfU (n : Nat) : CString := Nat.toDigits 10 n

/-- `sprintf(s, "%d", n)` of a `uint32_t`. -/
def sprintfD (n : UInt32) : CString :=
  if n.toNat < 2147483648 then sprintfU n.toNat else '-' :: sprintfU (4294967296 - n.toNat)

theorem isDigit_of_mem_sprintfU {n : Nat} {c : Char} (h : c ∈ sprintfU n) : c.isDigit = true :=
  Nat.isDigit_of_mem_toDigits (by decide) (by decide) h

theorem isSpace_of_isDigit {c : Char} (h : c.isDigit = true) : isSpace c = false := by
  have h48 : 48 ≤ c.toNat := by
    simp only [Char.isDigit, Bool.and_eq_true, decide_eq_true_eq, ge_iff_le,
      UInt32.le_iff_toNat_le] at h
    exact h.1
  have hne : c ≠ ' ' := by
    rintro rfl
    exact absurd h48 (by decide)
  simp only [isSpace, Bool.or_eq_false_iff, decide_eq_false_iff_not, Bool.and_eq_false_iff]
  exact ⟨hne, .inr (by omega)⟩

theorem digitsValue_sprintfU (n : Nat) : digitsValue (sprintfU n) = n := by
  have hall : ∀ c ∈ sprintfU n, c.isDigit = true := fun c => isDigit_of_mem_sprintfU
  rw [digitsValue, List.takeWhile_eq_self_iff.mpr hall, sprintfU, Nat.ofDigitChars_ten_toDigits]

/-- `atoi` reads back what `sprintf` wrote. -/
theorem atoi_sprintfU {n : Nat} (h : n < 2147483648) : atoi (sprintfU n) = n := by
  have hall : ∀ c ∈ sprintfU n, c.isDigit = true := fun c => isDigit_of_mem_sprintfU
  have hval := digitsValue_sprintfU n
  have hstrtol : strtol (sprintfU n) = n := by
    obtain ⟨c, rest, hs⟩ := List.exists_cons_of_ne_nil (Nat.toDigits_ne_nil (n := n) (b := 10))
    have hs' : sprintfU n = c :: rest := hs
    have hc : c.isDigit = true := hall c (by rw [hs']; exact List.mem_cons_self ..)
    have hsp := isSpace_of_isDigit hc
    have hdrop : (sprintfU n).dropWhile isSpace = sprintfU n := by
      rw [hs', List.dropWhile_cons_of_neg (by simp [hsp])]
    rw [strtol, hdrop]
    split
    · next r he =>
      rw [he] at hs'
      cases hs'
      exact absurd hc (by decide)
    · next r he =>
      rw [he] at hs'
      cases hs'
      exact absurd hc (by decide)
    · rw [hval]
      omega
  rw [atoi, hstrtol]
  exact Int.bmod_eq_of_le (by omega) (by omega)

theorem lt_of_length_sprintfU {n : Nat} (h : (sprintfU n).length < 5) : n < 10000 :=
  (Nat.length_toDigits_le_iff (by decide) (by decide)).mp (Nat.le_of_lt_succ h)

theorem sprintfD_of_lt {n : UInt32} (h : n.toNat < 2147483648) : sprintfD n = sprintfU n.toNat := if_pos h

/-- The `int` of a number from `2 ^ 31` on is negative. -/
theorem atoi_sprintfD_of_le {n : UInt32} (h : ¬ n.toNat < 2147483648) :
    atoi (sprintfD n) = (n.toNat : Int) - 4294967296 := by
  have hn := n.toNat_lt
  have hstrtol : strtol (sprintfD n) = (n.toNat : Int) - 4294967296 := by
    rw [sprintfD, if_neg h, strtol, List.dropWhile_cons_of_neg (by decide)]
    simp only [digitsValue_sprintfU]
    omega
  rw [atoi, hstrtol]
  exact Int.bmod_eq_of_le (by omega) (by omega)

theorem sprintfU_inj {m n : Nat} (h : sprintfU m = sprintfU n) : m = n := by
  have := congrArg (Nat.ofDigitChars 10 · 0) h
  simpa only [sprintfU, Nat.ofDigitChars_ten_toDigits] using this

theorem sprintfD_ne_sprintfU {m : UInt32} (h : ¬ m.toNat < 2147483648) (n : Nat) : sprintfD m ≠ sprintfU n := by
  intro he
  rw [sprintfD, if_neg h] at he
  have hdigit := isDigit_of_mem_sprintfU (n := n) (c := '-') (by rw [← he]; exact List.mem_cons_self ..)
  exact absurd hdigit (by decide)

theorem sprintfD_inj {m n : UInt32} (h : sprintfD m = sprintfD n) : m = n := by
  have hm := m.toNat_lt
  have hn := n.toNat_lt
  by_cases h₁ : m.toNat < 2147483648
  · rw [sprintfD_of_lt h₁] at h
    by_cases h₂ : n.toNat < 2147483648
    · rw [sprintfD_of_lt h₂] at h
      exact UInt32.toNat_inj.mp (sprintfU_inj h)
    · exact absurd h.symm (sprintfD_ne_sprintfU h₂ _)
  · by_cases h₂ : n.toNat < 2147483648
    · rw [sprintfD_of_lt h₂] at h
      exact absurd h (sprintfD_ne_sprintfU h₁ _)
    · rw [sprintfD, if_neg h₁, sprintfD, if_neg h₂, List.cons.injEq] at h
      have := sprintfU_inj h.2
      exact UInt32.toNat_inj.mp (by omega)

end SomeDB
