import Mathlib.Algebra.Order.Ring.Nat
import Mathlib.Data.List.Nodup
import Mathlib.Data.List.Pairwise
import Mathlib.Data.List.Perm.Subperm
import SomeDB.Lib.Prog

/-!
# Ledgers

A run takes in resources with its operations, gives some of them out with its results, and its state owns others. If no
operation gives out and leaves more than it took in and found, no run does (`runAll_ledger`): a resource that was taken
in once is given out at most once, and not while it is still owned. Where the operations give out and leave exactly what
they found and what is new, nothing is lost either (`runAll_balance`).

`subperm_flatMap_set` is for a state that is an array of owners.
-/

namespace Lib

section Owners

variable {α β : Type} {f : β → List α} {l : List β} {i : Nat} {b b' : β} {given taken : List α}

/-- One of the owners is replaced. -/
theorem count_flatMap_set [DecidableEq α] (f : β → List α) (b' : β) (hi : l[i]? = some b) (a : α) :
    ((l.set i b').flatMap f).count a + (f b).count a = (l.flatMap f).count a + (f b').count a := by
  induction l generalizing i with
  | nil => cases hi
  | cons c l ih =>
    cases i with
    | zero =>
      cases hi
      simp only [List.set_cons_zero, List.flatMap_cons, List.count_append]
      omega
    | succ i =>
      have ih := ih hi
      simp only [List.set_cons_succ, List.flatMap_cons, List.count_append]
      omega

theorem nodup_of_subperm {l l' : List α} (h : l.Subperm l') (hnodup : l'.Nodup) : l.Nodup := by
  obtain ⟨l₁, hperm, hsub⟩ := h
  exact hperm.nodup_iff.mp (hnodup.sublist hsub)

/-- A resource that is owned once has one owner. -/
theorem owner_unique (h : (l.flatMap f).Nodup) (hb : b ∈ l) (hb' : b' ∈ l) {a : α} (ha : a ∈ f b) (ha' : a ∈ f b') :
    b = b' := by
  by_contra hne
  have hsymm : Std.Symm (Function.onFun List.Disjoint f) := ⟨fun _ _ hxy => List.disjoint_symm hxy⟩
  have hdisjoint : List.Disjoint (f b) (f b') := (List.nodup_flatMap.mp h).2.forall hb hb' hne
  exact hdisjoint ha ha'

/-- What one owner gives out, keeps and takes in is what all of them do. -/
theorem subperm_flatMap_set (hi : l[i]? = some b) (h : (given ++ f b').Subperm (taken ++ f b)) :
    (given ++ (l.set i b').flatMap f).Subperm (taken ++ l.flatMap f) := by
  classical
  rw [List.subperm_iff_count] at h ⊢
  intro a
  have ha := h a
  have hset := count_flatMap_set f b' hi a
  simp only [List.count_append] at ha ⊢
  omega

end Owners

namespace Prog

variable {ε σ ι α β : Type} {step : ι → Prog ε σ β}

/-- The ledger of a run. -/
theorem runAll_ledger (give : β → List α) (take : ι → List α) (owned : σ → List α) (Inv : σ → Prop)
    (hstep : ∀ s i b s', Inv s → step i s = (.ok b, s') →
      Inv s' ∧ (give b ++ owned s').Subperm (take i ++ owned s))
    {is : List ι} {s s' : σ} {bs : List β} (h : Inv s) (hrun : runAll step is s = (.ok bs, s')) :
    Inv s' ∧ (bs.flatMap give ++ owned s').Subperm (is.flatMap take ++ owned s) := by
  induction is generalizing s bs with
  | nil =>
    cases hrun
    exact ⟨h, .refl _⟩
  | cons i is ih =>
    obtain ⟨b, bs', s₁, hi, his, rfl⟩ := runAll_cons_eq_ok hrun
    obtain ⟨h₁, hone⟩ := hstep s i b s₁ h hi
    obtain ⟨h', hrest⟩ := ih h₁ his
    refine ⟨h', ?_⟩
    classical
    rw [List.subperm_iff_count] at hone hrest ⊢
    intro a
    have hone := hone a
    have hrest := hrest a
    simp only [List.flatMap_cons, List.count_append] at hone hrest ⊢
    omega

/-- The balance of a run. If each operation gives out and leaves what it found and what is new, so does the run. -/
theorem runAll_balance (give : β → List α) (owned made : σ → List α) (Inv : σ → Prop)
    (hstep : ∀ s i b s', Inv s → step i s = (.ok b, s') →
      Inv s' ∧ ∃ new, (made s').Perm (made s ++ new) ∧ (give b ++ owned s').Perm (owned s ++ new))
    {is : List ι} {s s' : σ} {bs : List β} (h : Inv s) (hrun : runAll step is s = (.ok bs, s')) :
    Inv s' ∧ ∃ new, (made s').Perm (made s ++ new) ∧ (bs.flatMap give ++ owned s').Perm (owned s ++ new) := by
  induction is generalizing s bs with
  | nil =>
    cases hrun
    refine ⟨h, [], ?_, ?_⟩
    · rw [List.append_nil]
    · rw [List.append_nil, List.flatMap_nil, List.nil_append]
  | cons i is ih =>
    obtain ⟨b, bs', s₁, hi, his, rfl⟩ := runAll_cons_eq_ok hrun
    obtain ⟨h₁, new₁, hmade₁, hgive₁⟩ := hstep s i b s₁ h hi
    obtain ⟨h', new₂, hmade₂, hgive₂⟩ := ih h₁ his
    refine ⟨h', new₁ ++ new₂, ?_, ?_⟩
    · rw [← List.append_assoc]
      exact hmade₂.trans (hmade₁.append_right new₂)
    · rw [List.flatMap_cons, List.append_assoc, ← List.append_assoc (owned s)]
      refine (hgive₂.append_left (give b)).trans ?_
      rw [← List.append_assoc]
      exact hgive₁.append_right new₂

end Prog

end Lib
