import Mathlib.Algebra.Order.Ring.Nat
import Mathlib.Order.Defs.LinearOrder

/-!
# Precedence trees

Operands `α` and operators `β` with levels in a linear order. `OpTree.Ordered`: an operator binds at least as
tightly as its parent on the left of it, and more tightly on the right of it, so that operators of one level
associate to the left.

A sequence of operands and operators has exactly one ordered tree: `ofChain` builds it (`ordered_ofChain`),
and there is no other (`Ordered.unique`), because the root is the last of the loosest operators
(`Ordered.left_le`, `Ordered.right_lt`).
-/

namespace Lib

/-- A tree of binary operators. -/
inductive OpTree (α β : Type) where
  | leaf (a : α)
  | node (left : OpTree α β) (op : β) (right : OpTree α β)

namespace OpTree

variable {α β γ : Type}

/-- The leftmost operand. -/
def first : OpTree α β → α
  | leaf a => a
  | node left _ _ => left.first

/-- The in-order traversal behind the first operand: each operator, with the operand that follows it. -/
def chain : OpTree α β → List (β × α)
  | leaf _ => []
  | node left op right => left.chain ++ (op, right.first) :: right.chain

/-- The operator at the root. -/
def root : OpTree α β → Option β
  | leaf _ => none
  | node _ op _ => some op

variable [LinearOrder γ] (level : β → γ)

/-- A left child binds no looser than its parent, a right child tighter. -/
def Ordered : OpTree α β → Prop
  | leaf _ => True
  | node left op right => left.Ordered ∧ right.Ordered ∧
    (∀ o ∈ left.root, level op ≤ level o) ∧ ∀ o ∈ right.root, level op < level o

/-- Put an operator and an operand behind the tree. -/
def snoc : OpTree α β → β → α → OpTree α β
  | leaf b, op, a => node (leaf b) op (leaf a)
  | node left o right, op, a =>
    if level o < level op then node left o (right.snoc op a)
    else node (node left o right) op (leaf a)

/-- The tree of a sequence. -/
def ofChain (a : α) (c : List (β × α)) : OpTree α β := c.foldl (fun t x => t.snoc level x.1 x.2) (leaf a)

variable {level}

/-! ## The tree of a sequence -/

@[simp] theorem first_snoc (t : OpTree α β) (op : β) (a : α) : (t.snoc level op a).first = t.first := by
  induction t with
  | leaf b => rfl
  | node left o right ihl ihr =>
    unfold snoc
    split <;> rfl

@[simp] theorem chain_snoc (t : OpTree α β) (op : β) (a : α) :
    (t.snoc level op a).chain = t.chain ++ [(op, a)] := by
  induction t with
  | leaf b => rfl
  | node left o right ihl ihr =>
    unfold snoc
    split
    · simp [chain, ihr]
    · rfl

/-- The root of a longer tree is the new operator or the old root. -/
theorem mem_root_snoc {t : OpTree α β} {op o : β} {a : α} (h : o ∈ (t.snoc level op a).root) :
    o = op ∨ o ∈ t.root := by
  cases t with
  | leaf b => exact .inl (Option.some.inj h).symm
  | node left o' right =>
    unfold snoc at h
    split at h
    · exact .inr h
    · exact .inl (Option.some.inj h).symm

theorem Ordered.snoc {t : OpTree α β} (h : t.Ordered level) (op : β) (a : α) :
    (t.snoc level op a).Ordered level := by
  induction t with
  | leaf b => exact ⟨trivial, trivial, by rintro o ⟨⟩, by rintro o ⟨⟩⟩
  | node left o right ihl ihr =>
    obtain ⟨hl, hr, hle, hlt⟩ := h
    unfold OpTree.snoc
    split
    · next hop =>
      refine ⟨hl, ihr hr, hle, fun o' ho' => ?_⟩
      rcases mem_root_snoc ho' with rfl | ho'
      · exact hop
      · exact hlt o' ho'
    · next hop =>
      refine ⟨⟨hl, hr, hle, hlt⟩, trivial, fun o' ho' => ?_, by rintro o' ⟨⟩⟩
      cases ho'
      exact not_lt.mp hop

theorem ordered_foldl (c : List (β × α)) {t : OpTree α β} (h : t.Ordered level) :
    (c.foldl (fun t x => t.snoc level x.1 x.2) t).Ordered level := by
  induction c generalizing t with
  | nil => exact h
  | cons x c ih => exact ih (h.snoc x.1 x.2)

theorem chain_foldl (c : List (β × α)) (t : OpTree α β) :
    (c.foldl (fun t x => t.snoc level x.1 x.2) t).first = t.first ∧
      (c.foldl (fun t x => t.snoc level x.1 x.2) t).chain = t.chain ++ c := by
  induction c generalizing t with
  | nil => simp
  | cons x c ih =>
    obtain ⟨hfirst, hchain⟩ := ih (t.snoc level x.1 x.2)
    exact ⟨by rw [List.foldl_cons, hfirst, first_snoc], by rw [List.foldl_cons, hchain, chain_snoc]; simp⟩

theorem ordered_ofChain (a : α) (c : List (β × α)) : (ofChain level a c).Ordered level :=
  ordered_foldl c trivial

theorem first_ofChain (a : α) (c : List (β × α)) : (ofChain level a c).first = a :=
  (chain_foldl c (leaf a)).1

theorem chain_ofChain (a : α) (c : List (β × α)) : (ofChain level a c).chain = c :=
  (chain_foldl c (leaf a)).2

/-! ## There is no other -/

/-- An ordered tree has no operator looser than its root. -/
theorem Ordered.root_le {t : OpTree α β} (h : t.Ordered level) {o : β} (ho : o ∈ t.root) :
    ∀ x ∈ t.chain, level o ≤ level x.1 := by
  induction t generalizing o with
  | leaf a => cases ho
  | node left op right ihl ihr =>
    obtain ⟨hl, hr, hle, hlt⟩ := h
    cases ho
    have hbelow : ∀ {s : OpTree α β}, s.Ordered level → (∀ o' ∈ s.root, level op ≤ level o') →
        (∀ {o'}, o' ∈ s.root → ∀ x ∈ s.chain, level o' ≤ level x.1) →
        ∀ x ∈ s.chain, level op ≤ level x.1 := by
      intro s hs hroot hs' x hx
      cases s with
      | leaf a => cases hx
      | node l o' r => exact le_trans (hroot o' rfl) (hs' rfl x hx)
    intro x hx
    rcases List.mem_append.mp hx with hx | hx
    · exact hbelow hl hle (ihl hl) x hx
    · rcases List.mem_cons.mp hx with rfl | hx
      · exact le_refl _
      · exact hbelow hr (fun o' ho' => le_of_lt (hlt o' ho')) (ihr hr) x hx

theorem Ordered.left_le {left right : OpTree α β} {op : β} (h : (node left op right).Ordered level) :
    ∀ x ∈ left.chain, level op ≤ level x.1 := fun x hx =>
  h.root_le rfl x (List.mem_append_left _ hx)

theorem Ordered.right_lt {left right : OpTree α β} {op : β} (h : (node left op right).Ordered level) :
    ∀ x ∈ right.chain, level op < level x.1 := by
  intro x hx
  cases right with
  | leaf a => cases hx
  | node l o r => exact lt_of_lt_of_le (h.2.2.2 o rfl) (h.2.1.root_le rfl x hx)

/-- The last of the loosest operators of a sequence stands in one place. -/
theorem split_unique {c₁ c₂ d₁ d₂ : List (β × α)} {x y : β × α} (heq : c₁ ++ x :: c₂ = d₁ ++ y :: d₂)
    (hc₁ : ∀ z ∈ c₁, level x.1 ≤ level z.1) (hc₂ : ∀ z ∈ c₂, level x.1 < level z.1)
    (hd₁ : ∀ z ∈ d₁, level y.1 ≤ level z.1) (hd₂ : ∀ z ∈ d₂, level y.1 < level z.1) :
    c₁ = d₁ ∧ x = y ∧ c₂ = d₂ := by
  -- where one of the sequences in front is longer, `x` and `y` bind tighter than each other
  have hlonger : ∀ {c₁ c₂ d₂ e : List (β × α)} {x y : β × α}, x :: c₂ = e ++ y :: d₂ →
      (∀ z ∈ c₂, level x.1 < level z.1) → (∀ z ∈ c₁ ++ e, level y.1 ≤ level z.1) →
      e = [] ∧ x = y ∧ c₂ = d₂ := by
    intro c₁ c₂ d₂ e x y h hc₂ he
    cases e with
    | nil => exact ⟨rfl, List.cons.inj h⟩
    | cons z e =>
      obtain ⟨rfl, rfl⟩ := List.cons.inj h
      have h₁ := hc₂ y (List.mem_append_right _ (List.mem_cons_self ..))
      have h₂ := he x (List.mem_append_right _ (List.mem_cons_self ..))
      exact absurd h₁ (not_lt.mpr h₂)
  rcases List.append_eq_append_iff.mp heq with ⟨e, rfl, h⟩ | ⟨e, rfl, h⟩
  · obtain ⟨rfl, rfl, rfl⟩ := hlonger h hc₂ hd₁
    exact ⟨by simp, rfl, rfl⟩
  · obtain ⟨rfl, rfl, rfl⟩ := hlonger h hd₂ hc₁
    exact ⟨by simp, rfl, rfl⟩

/-- **One ordered tree.** The in-order traversal determines an ordered tree. -/
theorem Ordered.unique {t u : OpTree α β} (ht : t.Ordered level) (hu : u.Ordered level)
    (hfirst : t.first = u.first) (hchain : t.chain = u.chain) : t = u := by
  induction t generalizing u with
  | leaf a =>
    cases u with
    | leaf b => exact congrArg leaf hfirst
    | node l o r => simp [chain] at hchain
  | node left op right ihl ihr =>
    cases u with
    | leaf b => simp [chain] at hchain
    | node l o r =>
      obtain ⟨hleft, hx, hright⟩ := split_unique hchain ht.left_le ht.right_lt hu.left_le hu.right_lt
      obtain ⟨rfl, hfirst'⟩ := Prod.mk.inj hx
      rw [ihl ht.1 hu.1 hfirst hleft, ihr ht.2.1 hu.2.1 hfirst' hright]

end OpTree

end Lib
