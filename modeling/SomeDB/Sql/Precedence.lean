import SomeDB.Lib.OpTree
import SomeDB.Sql.Grammar

/-!
# Operator sequences

`parse` climbs the precedences: from a sequence of operands and operators it returns the ordered tree of the
sequence (`Lib.OpTree`). The step is `parses_ordered`: on the tokens of an ordered tree, `parse` arrives at
its loop with the tree read.
-/

namespace SomeDB

open Lib SomeDB.Parser

/-- The literals of an expression from left to right. -/
def SqlExpr.inorder : SqlExpr → List CString
  | .binary left op right => left.inorder ++ op :: right.inorder
  | .identifier w => [w]
  | .select .. => []

/-- The tokens of a sequence: an operand, then operators that are followed by an operand each. -/
def operatorTokens (a : Token) (ops : List (Token × Token)) : List Token :=
  a :: ops.flatMap fun x => [x.1, x.2]

/-- The expression that the parser makes of a tree of tokens. -/
def toSql : OpTree Token Token → SqlExpr
  | .leaf a => .identifier a.literal
  | .node left op right => .binary (toSql left) op.literal (toSql right)

/-- The precedence of an operator. -/
def opLevel (op : Token) : Nat := op.type.precedence

/-- The tokens of a tree. -/
def treeTokens (t : OpTree Token Token) : List Token := operatorTokens t.first t.chain

/-- Operands and operators are where they belong. -/
def OfOperators : OpTree Token Token → Prop
  | .leaf a => a.IsAtom
  | .node left op right => OfOperators left ∧ op.type.isInfix = true ∧ OfOperators right

theorem operatorTokens_append (a : Token) (c : List (Token × Token)) (op b : Token)
    (d : List (Token × Token)) :
    operatorTokens a (c ++ (op, b) :: d) = operatorTokens a c ++ op :: operatorTokens b d := by
  simp [operatorTokens]

theorem treeTokens_node (left right : OpTree Token Token) (op : Token) :
    treeTokens (.node left op right) = treeTokens left ++ op :: treeTokens right := by
  unfold treeTokens
  exact operatorTokens_append ..

theorem inorder_toSql (t : OpTree Token Token) : (toSql t).inorder = (treeTokens t).map Token.literal := by
  induction t with
  | leaf a => rfl
  | node left op right ihl ihr =>
    rw [treeTokens_node, List.map_append, List.map_cons, ← ihl, ← ihr]
    rfl

theorem ofOperators {t : OpTree Token Token} (hfirst : t.first.IsAtom)
    (hchain : ∀ x ∈ t.chain, x.1.type.isInfix = true ∧ x.2.IsAtom) : OfOperators t := by
  induction t with
  | leaf a => exact hfirst
  | node left op right ihl ihr =>
    obtain ⟨hop, hright⟩ := hchain (op, right.first) (List.mem_append_right _ (List.mem_cons_self ..))
    refine ⟨ihl hfirst fun x hx => hchain x (List.mem_append_left _ hx), hop, ihr hright fun x hx => ?_⟩
    exact hchain x (List.mem_append_right _ (List.mem_cons_of_mem _ hx))

/-- On the tokens of an ordered tree, all tighter than `p`, `parse` goes on as its loop does with the tree. -/
theorem parses_ordered {t : OpTree Token Token} (ht : OfOperators t) (hord : t.Ordered opLevel) {p : Nat}
    {toks rest : List Token} {e : SqlExpr} (hp : ∀ o ∈ t.root, p < opLevel o)
    (hnext : ∀ o ∈ t.root, nextPrecedence toks ≤ opLevel o) (h : Continues p (toSql t) toks e rest) :
    Parses p (treeTokens t ++ toks) e rest := by
  induction t generalizing p toks rest e with
  | leaf a => exact .intro (.atom ht toks) h
  | node left op right ihl ihr =>
    obtain ⟨hleft, hop, hright⟩ := ht
    obtain ⟨hordl, hordr, hle, hlt⟩ := hord
    have hnext' : nextPrecedence toks ≤ opLevel op := hnext op rfl
    -- the right operand ends where an operator comes that binds no tighter than `op`
    have hoperand : Parses (opLevel op) (treeTokens right ++ toks) (toSql right) toks :=
      ihr hright hordr hlt (fun o ho => Nat.le_trans hnext' (Nat.le_of_lt (hlt o ho))) (.stop hnext' _)
    have hloop : Continues p (toSql left) (op :: (treeTokens right ++ toks)) e rest :=
      .step hop (hp op rfl) hoperand h
    rw [treeTokens_node, List.append_assoc, List.cons_append]
    exact ihl hleft hordl (fun o ho => Nat.lt_of_lt_of_le (hp op rfl) (hle o ho)) hle hloop

/-- **Precedence climbing.** A sequence of operands and operators has one ordered tree, and `parse` reads the
sequence to its end and returns that tree. -/
theorem parse_operators (a : Token) (ops : List (Token × Token)) (ha : a.IsAtom)
    (hops : ∀ x ∈ ops, x.1.type.isInfix = true ∧ x.2.IsAtom) :
    ∃ t : OpTree Token Token, (t.first = a ∧ t.chain = ops ∧ t.Ordered opLevel) ∧
      (∀ u : OpTree Token Token, u.first = a ∧ u.chain = ops ∧ u.Ordered opLevel → u = t) ∧
      (toSql t).inorder = (operatorTokens a ops).map Token.literal ∧
      ∃ n, ∀ fuel, n ≤ fuel → parse fuel 0 (operatorTokens a ops) = (.ok (toSql t), []) := by
  have hfirst : (OpTree.ofChain opLevel a ops).first = a := OpTree.first_ofChain a ops
  have hchain : (OpTree.ofChain opLevel a ops).chain = ops := OpTree.chain_ofChain a ops
  have hord : (OpTree.ofChain opLevel a ops).Ordered opLevel := OpTree.ordered_ofChain a ops
  generalize OpTree.ofChain opLevel a ops = t at hfirst hchain hord
  subst hfirst hchain
  have hpos : ∀ o ∈ t.root, 0 < opLevel o := by
    intro o ho
    cases t with
    | leaf b => cases ho
    | node left op right =>
      cases ho
      exact TokenType.precedence_pos (hops _ (List.mem_append_right _ (List.mem_cons_self ..))).1
  have hparses : Parses 0 (treeTokens t ++ []) (toSql t) [] :=
    parses_ordered (ofOperators ha hops) hord hpos (fun o _ => Nat.zero_le _) (.stop (Nat.le_refl 0) _)
  obtain ⟨n, hparse⟩ := hparses
  rw [List.append_nil] at hparse
  refine ⟨t, ⟨rfl, rfl, hord⟩, fun u hu => hu.2.2.unique hord hu.1 hu.2.1, inorder_toSql t, n,
    fun fuel hfuel => parse_le hfuel hparse⟩

/-- `1 + a * 2`. -/
theorem parse_operators_sum : ∃ n, ∀ fuel, n ≤ fuel →
    parse fuel 0 [⟨.int, ['1']⟩, ⟨.plus, ['+']⟩, ⟨.identifier, ['a']⟩, ⟨.asterisk, ['*']⟩, ⟨.int, ['2']⟩] =
      (.ok (.binary (.identifier ['1']) ['+'] (.binary (.identifier ['a']) ['*'] (.identifier ['2']))), []) := by
  obtain ⟨t, -, hunique, -, hparse⟩ := parse_operators ⟨.int, ['1']⟩
    [(⟨.plus, ['+']⟩, ⟨.identifier, ['a']⟩), (⟨.asterisk, ['*']⟩, ⟨.int, ['2']⟩)] (.inr rfl)
    (by simp [Token.IsAtom, TokenType.isInfix])
  obtain rfl := hunique (.node (.leaf ⟨.int, ['1']⟩) ⟨.plus, ['+']⟩
    (.node (.leaf ⟨.identifier, ['a']⟩) ⟨.asterisk, ['*']⟩ (.leaf ⟨.int, ['2']⟩)))
    ⟨rfl, rfl, by simp [OpTree.Ordered, OpTree.root, opLevel, TokenType.precedence]⟩
  exact hparse

end SomeDB
