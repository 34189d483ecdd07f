import SomeDB.Sql.Precedence
import SomeDB.Sql.RoundTrip
import SomeDB.Sql.Lexemes

/-!
# Printing (`SqlExpr::toString`)

`toString` writes the operands and operators of an expression from left to right, without parentheses, and of a
statement the projection and the selection, without the table.

* `Lexer.populateTokens_of_cut`: a text that is cut into lexemes is read as these.
* `parseText_toString`: the text of an expression is parsed to the ordered tree of its operators, which is the
  expression just if it is written without parentheses.
* `parseText_toString_select`: the text of a statement is never parsed.
-/

namespace SomeDB

open Lib SomeDB.Parser

mutual

/-- `SqlExpr::toString`. -/
def SqlExpr.toString : SqlExpr → CString
  | .binary left op right => left.toString ++ op ++ right.toString
  | .identifier w => w
  | .select _ projection selection =>
    "SELECT ".toList ++ SqlExpr.projectionToString projection ++ SqlExpr.selectionToString selection

/-- The projection in `SqlSelect::toString`. -/
def SqlExpr.projectionToString : List SqlExpr → CString
  | [] => []
  | e :: es => e.toString ++ ", ".toList ++ SqlExpr.projectionToString es

/-- The selection in `SqlSelect::toString`. -/
def SqlExpr.selectionToString : Option SqlExpr → CString
  | none => " ".toList
  | some e => "WHERE ".toList ++ e.toString

end

section Equations

variable {e left right : SqlExpr} {es projection : List SqlExpr} {selection : Option SqlExpr} {op w : CString}

theorem SqlExpr.toString_binary : (SqlExpr.binary left op right).toString = left.toString ++ op ++ right.toString :=
  rfl

theorem SqlExpr.toString_identifier : (SqlExpr.identifier w).toString = w := rfl

theorem SqlExpr.toString_select : (SqlExpr.select w projection selection).toString =
    "SELECT ".toList ++ projectionToString projection ++ selectionToString selection := rfl

theorem SqlExpr.projectionToString_cons :
    projectionToString (e :: es) = e.toString ++ ", ".toList ++ projectionToString es := rfl

theorem SqlExpr.selectionToString_none : selectionToString none = " ".toList := rfl

end Equations

/-! ## Texts that are cut into lexemes -/

namespace Lexer

variable {t u : Token} {toks : List Token} {s text : List Char}

theorem Cut.token (ht : Lexeme t) (hs : t.EndsBefore s) (h : Cut toks s) : Cut (t :: toks) (t.literal ++ s) := by
  have hws : ∀ c ∈ ([] : List Char), isBlank c = true := by simp
  exact .cons hws (.lexeme ht hs) h

theorem Cut.blank (h : Cut toks s) : Cut toks (' ' :: s) := by
  cases h with
  | nil hws => exact .nil (by simpa [isBlank] using hws)
  | @cons t ts ws w s hws hw h =>
    have hws' : ∀ c ∈ ' ' :: ws, isBlank c = true := by simpa [isBlank] using hws
    exact .cons hws' hw h

theorem Lexeme.type_ne_illegal (h : Lexeme t) : t.type ≠ .illegal := by
  cases h with
  | symbol h => exact (symbol_type h).2.1
  | @word w =>
    rcases Token.getStringType_cases w with h | h <;> simp [h]
  | gt | lt | gtEq | ltEq | int => simp

theorem Piece.literal_eq (h : Piece s t text) (ht : Lexeme t) : text = t.literal ∧ t.EndsBefore s := by
  cases h with
  | lexeme _ hs => exact ⟨rfl, hs⟩
  | other hc literal => exact absurd rfl ht.type_ne_illegal

/-- A text that is cut into lexemes is read as these. -/
theorem populateTokens_of_cut (h : Cut toks text) (hlex : ∀ t ∈ toks, Lexeme t) (pre : List Char)
    (hlen : (pre ++ text).length < 65536) {fuel : Nat} (hfuel : text.length + 1 < fuel) (tok : Token) :
    ∃ lx, populateTokens fuel tok (after pre text) = (.ok toks, lx) := by
  induction h generalizing pre fuel tok with
  | @nil ws hws =>
    obtain ⟨fuel, rfl⟩ : ∃ n, fuel = n + 1 := ⟨fuel - 1, by omega⟩
    have hskip := nextToken_blanks (s := []) hws rfl hlen (show ws.length < fuel by omega) tok
    rw [List.append_nil] at hskip
    obtain ⟨lx, hend⟩ := nextToken_closed (show Closed [] from rfl) (pre ++ ws) hlen (show 0 < fuel by omega) tok
    rw [populateTokens, Prog.bind_ok (hskip.trans hend)]
    exact ⟨lx, rfl⟩
  | @cons t ts ws w s hws hw h ih =>
    have ht := hlex t List.mem_cons_self
    obtain ⟨rfl, hs⟩ := hw.literal_eq ht
    obtain ⟨fuel, rfl⟩ : ∃ n, fuel = n + 1 := ⟨fuel - 1, by omega⟩
    obtain ⟨c, w, hhead, hblank⟩ := ht.head
    have hpos : 0 < t.literal.length := by simp [hhead]
    simp only [List.length_append] at hlen hfuel
    have hskip : nextToken fuel tok (after pre (ws ++ (t.literal ++ s))) =
        nextToken fuel tok (after (pre ++ ws) (t.literal ++ s)) :=
      nextToken_blanks hws (by rw [hhead]; exact hblank) (by rw [List.length_append]; omega) (by omega) tok
    have hread := nextToken_lexeme ht hs (show (pre ++ ws ++ t.literal).length < 65536 by
      simp only [List.length_append]; omega) (show t.literal.length < fuel by omega) tok
    obtain ⟨lx, hrest⟩ := ih (fun t' ht' => hlex t' (List.mem_cons_of_mem _ ht')) (pre ++ ws ++ t.literal)
      (by simp only [List.length_append]; omega) (show s.length + 1 < fuel by omega) t
    exact ⟨lx, populateTokens_cons ht.type_ne_eof (hskip.trans hread) hrest⟩

end Lexer

open Lexer (Lexeme Cut)

theorem parseText_of_cut {toks : List Token} {text : List Char} (h : Cut toks text) (hlex : ∀ t ∈ toks, Lexeme t)
    (hlen : text.length < 65535) {fuel : Nat} (hfuel : text.length + 1 < fuel) :
    parseText fuel text = parse fuel 0 toks := by
  obtain ⟨lx, hread⟩ := Lexer.populateTokens_of_cut h hlex [] (by rw [List.nil_append]; omega) hfuel
    ⟨.illegal, []⟩
  rw [parseText, Lexer.new_eq, hread]

/-! ## Expressions -/

/-- The tree of an expression. -/
def Expr.tree : Expr → OpTree Token Token
  | .atom a => .leaf a.token
  | .binary left op right => .node left.tree op.token right.tree

/-- The ordered tree of the same operands and operators. -/
def Expr.reordered (e : Expr) : OpTree Token Token := OpTree.ofChain opLevel e.tree.first e.tree.chain

section Expressions

variable {e : Expr} {t u : OpTree Token Token}

theorem toSql_tree (e : Expr) : SomeDB.toSql e.tree = e.toSql := by
  induction e with
  | atom a => rfl
  | binary left op right ihl ihr => rw [Expr.tree, SomeDB.toSql, ihl, ihr, Expr.toSql]

theorem ofOperators_tree (e : Expr) : OfOperators e.tree := by
  induction e with
  | atom a => exact a.type
  | binary left op right ihl ihr => exact ⟨ihl, op.isInfix, ihr⟩

/-- What is printed of a tree is what it is made of. -/
theorem toString_toSql (t : OpTree Token Token) :
    (SomeDB.toSql t).toString = (treeTokens t).flatMap Token.literal := by
  induction t with
  | leaf a =>
    rw [SomeDB.toSql, SqlExpr.toString_identifier]
    simp [treeTokens, operatorTokens, OpTree.first, OpTree.chain]
  | node left op right ihl ihr =>
    rw [treeTokens_node, List.flatMap_append, List.flatMap_cons, ← ihl, ← ihr, SomeDB.toSql,
      SqlExpr.toString_binary, List.append_assoc]

theorem length_inorder (t : OpTree Token Token) : (SomeDB.toSql t).inorder.length = (treeTokens t).length := by
  rw [inorder_toSql, List.length_map]

/-- A tree is determined by its expression and its tokens. -/
theorem eq_of_toSql (hsql : SomeDB.toSql t = SomeDB.toSql u) (htoks : treeTokens t = treeTokens u) : t = u := by
  induction t generalizing u with
  | leaf a =>
    cases u with
    | leaf b => simpa [treeTokens, operatorTokens, OpTree.first, OpTree.chain] using htoks
    | node l o r => cases hsql
  | node left op right ihl ihr =>
    cases u with
    | leaf b => cases hsql
    | node l o r =>
      rw [SomeDB.toSql, SomeDB.toSql, SqlExpr.binary.injEq] at hsql
      rw [treeTokens_node, treeTokens_node] at htoks
      have hlen : (treeTokens left).length = (treeTokens l).length := by
        rw [← length_inorder, ← length_inorder, hsql.1]
      obtain ⟨hleft, hrest⟩ := List.append_inj htoks hlen
      obtain ⟨rfl, hright⟩ := List.cons.inj hrest
      rw [ihl hsql.1 hleft, ihr hsql.2.2 hright]

/-- How tightly the operator at the root binds. -/
theorem le_level_iff {n : Nat} (hn : n ≤ 4) (e : Expr) : (∀ o ∈ e.tree.root, n ≤ opLevel o) ↔ n ≤ e.level := by
  cases e with
  | atom a => exact ⟨fun _ => hn, fun _ o ho => by cases ho⟩
  | binary left op right => simp [Expr.tree, OpTree.root, opLevel, Expr.level, BinOp.precedence]

theorem BinOp.precedence_le (op : BinOp) : op.precedence ≤ 3 := by
  cases op <;> decide

theorem BinOp.token_ne_lparen (op : BinOp) : lparen ≠ op.token := by
  cases op <;> decide

theorem not_mem_wrap {b : Bool} {toks : List Token} : lparen ∉ wrap b toks ↔ b = false ∧ lparen ∉ toks := by
  cases b <;> simp [wrap]

/-- An expression that is written without parentheses is ordered. -/
theorem not_mem_render_iff (e : Expr) : lparen ∉ e.render ↔ e.tree.Ordered opLevel := by
  induction e with
  | atom a => cases a <;> simp [Expr.render, Expr.tree, OpTree.Ordered, Atom.token, lparen]
  | binary left op right ihl ihr =>
    have hop := op.precedence_le
    have hleft : (∀ o ∈ left.tree.root, opLevel op.token ≤ opLevel o) ↔ op.precedence ≤ left.level :=
      le_level_iff (Nat.le_succ_of_le hop) left
    have hright : (∀ o ∈ right.tree.root, opLevel op.token < opLevel o) ↔ op.precedence < right.level :=
      le_level_iff (Nat.succ_le_succ hop) right
    rw [Expr.tree, OpTree.Ordered, hleft, hright, ← ihl, ← ihr, Expr.render, List.mem_append, List.mem_cons, not_or,
      not_or, not_mem_wrap, not_mem_wrap, decide_eq_false_iff_not, decide_eq_false_iff_not]
    have hne := op.token_ne_lparen
    grind

end Expressions

/-! ## The text of an expression -/

/-- No letter and no digit comes next, so that a name or a number ends here. -/
def Apart (s : List Char) : Prop := isLetter (s.headD '\x00') = false ∧ isDigit (s.headD '\x00') = false

section Text

variable {s : List Char} {toks : List Token}

theorem Atom.lexeme (a : Atom) : Lexeme a.token := by
  cases a with
  | name n => exact lexeme_name n
  | number d => exact .int d.2.1 d.2.2

theorem Atom.endsBefore (a : Atom) (hs : Apart s) : a.token.EndsBefore s := by
  cases a with
  | name n => exact hs.1
  | number d => exact hs.2

/-- An operand begins with a letter or a digit. -/
theorem Atom.head (a : Atom) : ∃ c w, a.token.literal = c :: w ∧ (isLetter c = true ∨ isDigit c = true) := by
  cases a with
  | name n =>
    obtain ⟨c, w, hw⟩ := List.exists_cons_of_ne_nil n.2.1
    exact ⟨c, w, hw, .inl (n.2.2.1 c (hw ▸ List.mem_cons_self))⟩
  | number d =>
    obtain ⟨c, w, hw⟩ := List.exists_cons_of_ne_nil d.2.1
    exact ⟨c, w, hw, .inr (d.2.2 c (hw ▸ List.mem_cons_self))⟩

theorem Expr.head (e : Expr) : ∃ c w, e.toSql.toString = c :: w ∧ (isLetter c = true ∨ isDigit c = true) := by
  induction e with
  | atom a => exact a.head
  | binary left op right ihl ihr =>
    obtain ⟨c, w, hw, hc⟩ := ihl
    rw [Expr.toSql, SqlExpr.toString_binary, hw]
    exact ⟨c, _, by rw [List.cons_append, List.cons_append], hc⟩

/-- `=` behind `<` or `>` would be read with them. -/
theorem BinOp.endsBefore (op : BinOp) (hs : s.headD '\x00' ≠ '=') : op.token.EndsBefore s := by
  cases op with
  | lt | gt => exact hs
  | eq | le | ge | add | sub | mul | div => trivial

theorem BinOp.apart (op : BinOp) (s : List Char) : Apart (op.token.literal ++ s) := by
  cases op <;> exact ⟨rfl, rfl⟩

/-- The text of an expression is cut into the tokens of its tree. -/
theorem Expr.cut (e : Expr) (hs : Apart s) (h : Cut toks s) :
    Cut (treeTokens e.tree ++ toks) (e.toSql.toString ++ s) := by
  induction e generalizing s toks with
  | atom a => exact .token a.lexeme (a.endsBefore hs) h
  | binary left op right ihl ihr =>
    obtain ⟨c, w, hw, hc⟩ := right.head
    have hne : (right.toSql.toString ++ s).headD '\x00' ≠ '=' := by
      rw [hw]
      rintro rfl
      rcases hc with hc | hc <;> cases hc
    have hop := Cut.token (lexeme_operator op) (op.endsBefore hne) (ihr hs h)
    rw [Expr.tree, treeTokens_node, Expr.toSql, SqlExpr.toString_binary, List.append_assoc, List.append_assoc,
      List.append_assoc, List.cons_append]
    exact ihl (op.apart _) hop

theorem lexeme_treeTokens (e : Expr) : ∀ t ∈ treeTokens e.tree, Lexeme t := by
  induction e with
  | atom a =>
    intro t ht
    rw [List.mem_singleton.mp ht]
    exact a.lexeme
  | binary left op right ihl ihr =>
    rw [Expr.tree, treeTokens_node]
    intro t ht
    rcases List.mem_append.mp ht with ht | ht
    · exact ihl t ht
    rcases List.mem_cons.mp ht with rfl | ht
    · exact lexeme_operator op
    · exact ihr t ht

theorem apart_nil : Apart [] := ⟨rfl, rfl⟩

theorem cut_nil : Cut [] [] := .nil (by simp)

end Text

/-- The reordered tree has the operands and the operators of the expression. -/
theorem Expr.reordered_spec (e : Expr) :
    e.reordered.first = e.tree.first ∧ e.reordered.chain = e.tree.chain ∧ e.reordered.Ordered opLevel :=
  ⟨OpTree.first_ofChain _ _, OpTree.chain_ofChain _ _, OpTree.ordered_ofChain _ _⟩

theorem Expr.treeTokens_reordered (e : Expr) : treeTokens e.reordered = treeTokens e.tree := by
  unfold treeTokens
  rw [e.reordered_spec.1, e.reordered_spec.2.1]

/-- Where the operators of a tree come from, seen from its tokens. -/
theorem OfOperators.chain {t : OpTree Token Token} (h : OfOperators t) :
    t.first.IsAtom ∧ ∀ x ∈ t.chain, x.1.type.isInfix = true ∧ x.2.IsAtom := by
  induction t with
  | leaf a => exact ⟨h, by simp [OpTree.chain]⟩
  | node left op right ihl ihr =>
    obtain ⟨hleft, hop, hright⟩ := h
    refine ⟨(ihl hleft).1, fun x hx => ?_⟩
    rcases List.mem_append.mp hx with hx | hx
    · exact (ihl hleft).2 x hx
    rcases List.mem_cons.mp hx with rfl | hx
    · exact ⟨hop, (ihr hright).1⟩
    · exact (ihr hright).2 x hx

theorem Expr.ofOperators_reordered (e : Expr) : OfOperators e.reordered := by
  have h := (ofOperators_tree e).chain
  refine ofOperators ?_ ?_
  · rw [e.reordered_spec.1]
    exact h.1
  · rw [e.reordered_spec.2.1]
    exact h.2

/-- Every operator of such a tree binds. -/
theorem OfOperators.root_pos {t : OpTree Token Token} (h : OfOperators t) : ∀ o ∈ t.root, 0 < opLevel o := by
  intro o ho
  cases t with
  | leaf a => cases ho
  | node left op right =>
    cases ho
    exact TokenType.precedence_pos h.2.1

theorem Expr.parses_reordered (e : Expr) : Parses 0 (treeTokens e.tree) (SomeDB.toSql e.reordered) [] := by
  have hof := e.ofOperators_reordered
  have h : Parses 0 (treeTokens e.reordered ++ []) (SomeDB.toSql e.reordered) [] :=
    parses_ordered hof e.reordered_spec.2.2 hof.root_pos (fun o _ => Nat.zero_le _) (.stop (Nat.le_refl 0) _)
  rwa [List.append_nil, e.treeTokens_reordered] at h

/-- The order of the operators is kept just if the expression needs no parentheses. -/
theorem Expr.toSql_reordered_iff (e : Expr) : SomeDB.toSql e.reordered = e.toSql ↔ lparen ∉ e.render := by
  rw [not_mem_render_iff, ← toSql_tree]
  constructor
  · intro h
    rw [← eq_of_toSql h e.treeTokens_reordered]
    exact e.reordered_spec.2.2
  · intro h
    rw [e.reordered_spec.2.2.unique h e.reordered_spec.1 e.reordered_spec.2.1]

/-- **Printing loses the parentheses and nothing else.** The text that is printed of an expression is parsed, to its
end, to the ordered tree of the same operands and operators, of which the same text is printed. It is the expression
itself exactly if that is written without parentheses. -/
theorem parseText_toString (e : Expr) (hlen : e.toSql.toString.length < 65535) :
    (e.reordered.first = e.tree.first ∧ e.reordered.chain = e.tree.chain ∧ e.reordered.Ordered opLevel) ∧
      ∃ n, ∀ fuel, n ≤ fuel →
        parseText fuel e.toSql.toString = (.ok (SomeDB.toSql e.reordered), []) ∧
          (SomeDB.toSql e.reordered).toString = e.toSql.toString ∧
          (SomeDB.toSql e.reordered = e.toSql ↔ lparen ∉ e.render) := by
  obtain ⟨n, hparse⟩ := e.parses_reordered
  have hcut : Cut (treeTokens e.tree) e.toSql.toString := by simpa using e.cut apart_nil cut_nil
  refine ⟨e.reordered_spec, max n (e.toSql.toString.length + 2), fun fuel hfuel => ⟨?_, ?_, e.toSql_reordered_iff⟩⟩
  · rw [parseText_of_cut hcut (lexeme_treeTokens e) hlen (by omega)]
    exact parse_le (by omega) hparse
  · rw [toString_toSql, e.treeTokens_reordered, ← toString_toSql, toSql_tree]

/-- `( b + 3 ) * 4`. -/
def productOfSum : Expr := .binary
  (.binary (.atom (.name (nameOf 'b' (by decide) (by decide)))) .add (.atom (.number (digitOf '3' (by decide))))) .mul
  (.atom (.number (digitOf '4' (by decide))))

/-- Its text is that of a sum. -/
theorem parseText_toString_product : ∃ n, ∀ fuel, n ≤ fuel →
    parseText fuel "b+3*4".toList = (.ok (.binary (.identifier ['b']) ['+']
      (.binary (.identifier ['3']) ['*'] (.identifier ['4']))), []) := by
  obtain ⟨-, n, h⟩ := parseText_toString productOfSum (by decide)
  exact ⟨n, fun fuel hfuel => (h fuel hfuel).1⟩

/-! ## The text of a statement -/

/-- What the parser says to the text of a statement: the projection ends with a comma, behind which `WHERE` is
taken for an item, if it is there, and `FROM` is missing. -/
def Select.printError (s : Select) : ParseError :=
  (s.selection.map fun e =>
    ParseError.runtimeError ("Invalid SELECT statement near: ".toList ++ e.tree.first.literal)).getD .outOfRange

/-- The tokens of the text of a selection. -/
def selectionTokens (selection : Option Expr) : List Token :=
  (selection.map fun e => keyword "WHERE" :: treeTokens e.tree).getD []

/-- The tokens of the text of a statement. -/
def Select.printedTokens (s : Select) : List Token :=
  keyword "SELECT" :: ((s.first :: s.items).flatMap (fun i => [i.token, comma]) ++ selectionTokens s.selection)

section Statements

variable {s : List Char} {toks : List Token}

theorem ProjItem.endsBefore (i : ProjItem) (hs : Apart s) : i.token.EndsBefore s := by
  cases i with
  | star => trivial
  | name n => exact hs.1

theorem cut_projection (items : List ProjItem) (h : Cut toks s) :
    Cut (items.flatMap (fun i => [i.token, comma]) ++ toks)
      (SqlExpr.projectionToString (items.map fun i => .identifier i.token.literal) ++ s) := by
  induction items with
  | nil => exact h
  | cons i items ih =>
    have hcomma : Cut (comma :: (items.flatMap (fun i => [i.token, comma]) ++ toks))
        (comma.literal ++ ' ' :: (SqlExpr.projectionToString (items.map fun i => .identifier i.token.literal) ++ s)) :=
      .token (.symbol rfl) trivial ih.blank
    rw [List.map_cons, SqlExpr.projectionToString_cons, SqlExpr.toString_identifier, List.append_assoc,
      List.append_assoc]
    exact .token (lexeme_item i) (i.endsBefore ⟨rfl, rfl⟩) hcomma

theorem cut_selection (selection : Option Expr) :
    Cut (selectionTokens selection) (SqlExpr.selectionToString (selection.map Expr.toSql)) := by
  cases selection with
  | none =>
    rw [Option.map_none, SqlExpr.selectionToString_none]
    exact .nil (by simp [isBlank])
  | some e =>
    have he : Cut (treeTokens e.tree) e.toSql.toString := by simpa using e.cut apart_nil cut_nil
    have hwhere : Lexeme (keyword "WHERE") := lexeme_keyword (by decide) (by decide) (by decide)
    exact .token hwhere rfl he.blank

/-- The text of a statement is cut into its tokens. -/
theorem Select.cut (s : Select) : Cut s.printedTokens s.toSql.toString := by
  have hselect : Lexeme (keyword "SELECT") := lexeme_keyword (by decide) (by decide) (by decide)
  have hcut := (cut_projection (s.first :: s.items) (cut_selection s.selection)).blank
  rw [Select.toSql, SqlExpr.toString_select, List.append_assoc]
  exact .token hselect rfl hcut

theorem Select.lexeme_printedTokens (s : Select) : ∀ t ∈ s.printedTokens, Lexeme t := by
  intro t ht
  simp only [printedTokens, List.mem_cons, List.mem_append, List.mem_flatMap, List.not_mem_nil, or_false] at ht
  rcases ht with rfl | ⟨i, -, rfl | rfl⟩ | ht
  · exact lexeme_keyword (by decide) (by decide) (by decide)
  · exact lexeme_item i
  · exact .symbol rfl
  · cases hsel : s.selection with
    | none => simp [hsel, selectionTokens] at ht
    | some e =>
      rw [hsel] at ht
      rcases List.mem_cons.mp ht with rfl | ht
      · exact lexeme_keyword (by decide) (by decide) (by decide)
      · exact lexeme_treeTokens e t ht

theorem Expr.first_atom (e : Expr) : ∃ a : Atom, e.tree.first = a.token := by
  induction e with
  | atom a => exact ⟨a, rfl⟩
  | binary left op right ihl ihr => exact ihl

theorem Atom.literal_ne_from (a : Atom) : a.token.literal ≠ "FROM".toList := by
  cases a with
  | name n =>
    intro h
    have hn : n.1 = "FROM".toList := h
    exact n.2.2.2 (hn ▸ (by decide : "FROM".toList ∈ Token.keywords))
  | number d =>
    intro h
    have hd : d.1 = "FROM".toList := h
    have hdigit := d.2.2 'F' (hd ▸ (by decide : 'F' ∈ "FROM".toList))
    cases hdigit

theorem Atom.type_ne_comma (a : Atom) : a.token.type ≠ .comma := by
  cases a <;> simp [Atom.token]

/-- Behind the last comma there is nothing. -/
theorem projectionItems_unfinished (items : List ProjItem) :
    ∃ rest, projectionItems (comma :: items.flatMap fun i => [i.token, comma]) = (.error .outOfRange, rest) := by
  induction items with
  | nil => exact ⟨[], rfl⟩
  | cons i items ih =>
    obtain ⟨rest, ih⟩ := ih
    have hcomma : comma.type = .comma := rfl
    refine ⟨rest, ?_⟩
    rw [List.flatMap_cons, List.cons_append, List.cons_append, List.nil_append, projectionItems, if_pos hcomma, ih]

/-- Behind the last comma, `WHERE` is an item. -/
theorem projectionItems_where (items : List ProjItem) {w t : Token} (toks : List Token) (ht : t.type ≠ .comma) :
    ∃ es, projectionItems (comma :: (items.flatMap (fun i => [i.token, comma]) ++ w :: t :: toks)) =
      (.ok es, t :: toks) := by
  have hcomma : comma.type = .comma := rfl
  induction items with
  | nil =>
    refine ⟨[.identifier w.literal], ?_⟩
    rw [List.flatMap_nil, List.nil_append, projectionItems, if_pos hcomma]
    cases toks with
    | nil => rw [projectionItems, if_neg ht]
    | cons u toks => rw [projectionItems, if_neg ht]
  | cons i items ih =>
    obtain ⟨es, ih⟩ := ih
    refine ⟨.identifier i.token.literal :: es, ?_⟩
    have htoks : (i :: items).flatMap (fun i => [i.token, comma]) ++ w :: t :: toks =
      i.token :: comma :: (items.flatMap (fun i => [i.token, comma]) ++ w :: t :: toks) := rfl
    rw [htoks, projectionItems, if_pos hcomma, ih]

/-- The projection begins with its first item. -/
theorem populateProjectionList_first (i : ProjItem) (toks : List Token) :
    populateProjectionList (i.token :: toks) =
      (projectionItems >>= fun es => pure (.identifier i.token.literal :: es)) toks := by
  have hfirst : ¬ (i.token.type ≠ .asterisk ∧ i.token.type ≠ .identifier) := by
    cases i <;> simp [ProjItem.token]
  rw [populateProjectionList, Prog.bind_ok (peekToken_eq_ok.mpr ⟨rfl, _, rfl⟩), if_neg hfirst,
    Prog.bind_ok (takeToken_eq_ok.mpr rfl)]

/-- Behind its keyword, the text of a statement is refused. -/
theorem parseSelectStatement_printed (s : Select) (fuel : Nat) :
    ∃ rest, parseSelectStatement (fuel + 1) s.printedTokens.tail = (.error s.printError, rest) := by
  have htoks : s.printedTokens.tail = s.first.token :: comma ::
    (s.items.flatMap (fun i => [i.token, comma]) ++ selectionTokens s.selection) := rfl
  rw [htoks, parseSelectStatement, Select.printError]
  cases s.selection with
  | none =>
    obtain ⟨rest, hitems⟩ := projectionItems_unfinished s.items
    refine ⟨rest, ?_⟩
    have hproj := populateProjectionList_first s.first (comma :: s.items.flatMap fun i => [i.token, comma])
    rw [Prog.bind_error hitems] at hproj
    rw [selectionTokens, Option.map_none, Option.getD_none, List.append_nil, Prog.bind_error hproj]
    rfl
  | some e =>
    obtain ⟨a, ha⟩ := e.first_atom
    obtain ⟨es, hitems⟩ := projectionItems_where s.items (w := keyword "WHERE")
      (e.tree.chain.flatMap fun x => [x.1, x.2]) a.type_ne_comma
    have hproj := populateProjectionList_first s.first _ |>.trans (Prog.bind_ok hitems)
    refine ⟨e.tree.chain.flatMap fun x => [x.1, x.2], ?_⟩
    rw [selectionTokens, Option.map_some, Option.getD_some, treeTokens, operatorTokens, ha, Prog.bind_ok hproj,
      Prog.bind_ok (takeToken_eq_ok.mpr rfl), if_pos a.literal_ne_from, Option.map_some, Option.getD_some, ha]
    rfl

/-- **What is printed of a statement is no statement.** The table is not printed and a comma stands behind the last
item, so that the parser fails on the text of every statement: at the end of the tokens if there is no selection, and
at the first operand of the selection if there is one. -/
theorem parseText_toString_select (s : Select) (hlen : s.toSql.toString.length < 65535) :
    ∃ n, ∀ fuel, n ≤ fuel → ∃ rest, parseText fuel s.toSql.toString = (.error s.printError, rest) := by
  refine ⟨s.toSql.toString.length + 4, fun fuel hfuel => ?_⟩
  obtain ⟨fuel, rfl⟩ : ∃ m, fuel = m + 3 := ⟨fuel - 3, by omega⟩
  obtain ⟨rest, hstatement⟩ := parseSelectStatement_printed s fuel
  have hkeyword : (keyword "SELECT").type = .keyword := rfl
  have hprefix : parsePrefix (fuel + 2) s.printedTokens = (.error s.printError, rest) := by
    rw [Select.printedTokens, parsePrefix, Prog.bind_ok (takeToken_eq_ok.mpr rfl)]
    exact hstatement
  refine ⟨rest, ?_⟩
  rw [parseText_of_cut s.cut s.lexeme_printedTokens hlen (by omega), parse, Prog.bind_error hprefix]

/-- `SELECT a FROM t WHERE a`, of which `SELECT a, WHERE a` is printed. -/
theorem parseText_toString_select_where : ∃ n, ∀ fuel, n ≤ fuel → ∃ rest,
    parseText fuel "SELECT a, WHERE a".toList =
      (.error (.runtimeError "Invalid SELECT statement near: a".toList), rest) := by
  let a := nameOf 'a' (by decide) (by decide)
  exact parseText_toString_select ⟨.name a, [], a, some (.atom (.name a))⟩ (by decide)

end Statements

end SomeDB
