import Mathlib.Algebra.Order.Ring.Nat
import Mathlib.Order.Interval.Finset.Nat

/-!
# Ranges that do not overlap

A range is a pair of its start and its length. Ranges that lie in `[lo, hi)` and do not overlap are no longer
together than `hi - lo` (`sum_le`); if they are as long as that, they leave nothing out (`covers`).
-/

namespace Lib

/-- A start and a length. -/
abbrev Range := Nat × Nat

namespace Range

/-- One of the ranges ends before the other one begins. -/
def Apart (a b : Range) : Prop := a.1 + a.2 ≤ b.1 ∨ b.1 + b.2 ≤ a.1

/-- The numbers in the ranges. -/
def cells (rs : List Range) : Finset Nat := rs.foldr (fun a s => Finset.Ico a.1 (a.1 + a.2) ∪ s) ∅

theorem mem_cells {rs : List Range} {x : Nat} : x ∈ cells rs ↔ ∃ a ∈ rs, a.1 ≤ x ∧ x < a.1 + a.2 := by
  induction rs with
  | nil => simp [cells]
  | cons a rs ih =>
    have hcons : cells (a :: rs) = Finset.Ico a.1 (a.1 + a.2) ∪ cells rs := rfl
    rw [hcons, Finset.mem_union, Finset.mem_Ico, ih]
    simp

theorem card_cells {rs : List Range} (h : rs.Pairwise Apart) : (cells rs).card = (rs.map (·.2)).sum := by
  induction rs with
  | nil => rfl
  | cons a rs ih =>
    obtain ⟨ha, hrs⟩ := List.pairwise_cons.mp h
    have hdisj : Disjoint (Finset.Ico a.1 (a.1 + a.2)) (cells rs) := by
      rw [Finset.disjoint_left]
      intro x hx hx'
      rw [Finset.mem_Ico] at hx
      obtain ⟨b, hb, hx'⟩ := mem_cells.mp hx'
      rcases ha b hb with hab | hab <;> omega
    have hcons : cells (a :: rs) = Finset.Ico a.1 (a.1 + a.2) ∪ cells rs := rfl
    rw [hcons, Finset.card_union_of_disjoint hdisj, ih hrs, Nat.card_Ico, List.map_cons, List.sum_cons]
    omega

variable {rs : List Range} {lo hi : Nat}

theorem cells_subset (hin : ∀ a ∈ rs, lo ≤ a.1 ∧ a.1 + a.2 ≤ hi) : cells rs ⊆ Finset.Ico lo hi := by
  intro x hx
  obtain ⟨a, ha, hx⟩ := mem_cells.mp hx
  have := hin a ha
  rw [Finset.mem_Ico]
  omega

theorem sum_le (h : rs.Pairwise Apart) (hin : ∀ a ∈ rs, lo ≤ a.1 ∧ a.1 + a.2 ≤ hi) :
    (rs.map (·.2)).sum ≤ hi - lo := by
  rw [← card_cells h, ← Nat.card_Ico]
  exact Finset.card_le_card (cells_subset hin)

theorem covers (h : rs.Pairwise Apart) (hin : ∀ a ∈ rs, lo ≤ a.1 ∧ a.1 + a.2 ≤ hi)
    (hsum : hi - lo ≤ (rs.map (·.2)).sum) {x : Nat} (hlo : lo ≤ x) (hhi : x < hi) :
    ∃ a ∈ rs, a.1 ≤ x ∧ x < a.1 + a.2 := by
  have hcells : cells rs = Finset.Ico lo hi := by
    refine Finset.eq_of_subset_of_card_le (cells_subset hin) ?_
    rw [card_cells h, Nat.card_Ico]
    exact hsum
  rw [← mem_cells, hcells, Finset.mem_Ico]
  exact ⟨hlo, hhi⟩

end Range

end Lib
