import Mathlib.Data.List.Forall2

/-!
# Encodings that are read without separators

An encoding is `Delimited` on a relation if the encodings of two related values, whatever follows them, are
the same only for the same value: a reader knows where the first value ends. Then lists of related values can
be encoded one value after the other (`Delimited.eq_of_prefix`).
-/

namespace Lib

variable {α β : Type} {R : α → α → Prop} {enc : α → List β}

/-- Of two related values, one followed by anything is not read as the other one. -/
def Delimited (R : α → α → Prop) (enc : α → List β) : Prop :=
  ∀ a b, R a b → ∀ r s, enc a ++ r = enc b ++ s → a = b ∧ r = s

namespace Delimited

/-- The encoding of a list is a prefix of that of a related one only if the lists are the same. -/
theorem eq_of_prefix (h : Delimited R enc) {as bs : List α} (hrel : List.Forall₂ R as bs)
    (hpre : as.flatMap enc <+: bs.flatMap enc) : as = bs := by
  induction hrel with
  | nil => rfl
  | @cons a b as bs hab _ ih =>
    obtain ⟨rest, hrest⟩ := hpre
    rw [List.flatMap_cons, List.flatMap_cons, List.append_assoc] at hrest
    obtain ⟨rfl, htail⟩ := h a b hab _ _ hrest
    rw [ih ⟨rest, htail⟩]

theorem flatMap_inj (h : Delimited R enc) {as bs : List α} (hrel : List.Forall₂ R as bs) :
    as.flatMap enc = bs.flatMap enc ↔ as = bs :=
  ⟨fun heq => h.eq_of_prefix hrel (heq ▸ List.prefix_rfl), fun heq => heq ▸ rfl⟩

end Delimited

end Lib
