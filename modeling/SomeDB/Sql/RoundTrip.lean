import SomeDB.Sql.Parser

/-!
# Parsing undoes rendering

`Expr` and `Select` are the expressions and statements of the language, and `render` gives their tokens, with
the parentheses that the precedences ask for. `Expr.parses` is the step: on the tokens of an expression,
`parse` arrives at its loop with the expression read.
-/

namespace SomeDB

open Lib SomeDB.Parser

/-! ## The language -/

/-- Names: letters and underscores, but no keyword. -/
abbrev Name := { w : CString // w ≠ [] ∧ (∀ c ∈ w, isLetter c = true) ∧ w ∉ Token.keywords }

/-- Numbers. -/
abbrev Digits := { w : CString // w ≠ [] ∧ ∀ c ∈ w, isDigit c = true }

inductive Atom where
  | name (n : Name)
  | number (d : Digits)

inductive BinOp where
  | eq | lt | gt | le | ge | add | sub | mul | div

inductive Expr where
  | atom (a : Atom)
  | binary (left : Expr) (op : BinOp) (right : Expr)

inductive ProjItem where
  | star
  | name (n : Name)

/-- A statement; the projection has a first item. -/
structure Select where
  first : ProjItem
  items : List ProjItem
  table : Name
  selection : Option Expr

inductive Query where
  | expr (e : Expr)
  | select (s : Select)

/-! ## Rendering -/

def Atom.token : Atom → Token
  | .name n => ⟨.identifier, n.1⟩
  | .number d => ⟨.int, d.1⟩

def BinOp.token : BinOp → Token
  | .eq => ⟨.equals, ['=']⟩
  | .lt => ⟨.lt, ['<']⟩
  | .gt => ⟨.gt, ['>']⟩
  | .le => ⟨.ltEq, ['<', '=']⟩
  | .ge => ⟨.gtEq, ['>', '=']⟩
  | .add => ⟨.plus, ['+']⟩
  | .sub => ⟨.minus, ['-']⟩
  | .mul => ⟨.asterisk, ['*']⟩
  | .div => ⟨.slash, ['/']⟩

def BinOp.precedence (op : BinOp) : Nat := op.token.type.precedence

/-- How tightly an expression binds; an atom is never put in parentheses. -/
def Expr.level : Expr → Nat
  | .atom _ => 4
  | .binary _ op _ => op.precedence

def lparen : Token := ⟨.lparen, ['(']⟩
def rparen : Token := ⟨.rparen, [')']⟩
def comma : Token := ⟨.comma, [',']⟩
def keyword (w : String) : Token := ⟨.keyword, w.toList⟩

/-- Parentheses around an operand that needs them. -/
def wrap (needed : Bool) (toks : List Token) : List Token :=
  if needed then lparen :: (toks ++ [rparen]) else toks

def Expr.render : Expr → List Token
  | .atom a => [a.token]
  | .binary left op right =>
    wrap (left.level < op.precedence) left.render ++
      op.token :: wrap (right.level ≤ op.precedence) right.render

def ProjItem.token : ProjItem → Token
  | .star => ⟨.asterisk, ['*']⟩
  | .name n => ⟨.identifier, n.1⟩

def Select.render (s : Select) : List Token :=
  keyword "SELECT" :: s.first.token :: (s.items.flatMap (fun i => [comma, i.token]) ++
    keyword "FROM" :: ⟨.identifier, s.table.1⟩ ::
      match s.selection with
      | none => []
      | some e => keyword "WHERE" :: e.render)

def Query.render : Query → List Token
  | .expr e => e.render
  | .select s => s.render

/-! ## The trees that the parser builds -/

def Expr.toSql : Expr → SqlExpr
  | .atom a => .identifier a.token.literal
  | .binary left op right => .binary left.toSql op.token.literal right.toSql

def Select.toSql (s : Select) : SqlExpr :=
  .select s.table.1 ((s.first :: s.items).map fun i => .identifier i.token.literal)
    (s.selection.map Expr.toSql)

def Query.toSql : Query → SqlExpr
  | .expr e => e.toSql
  | .select s => s.toSql

/-! ## Parsing -/

theorem BinOp.isInfix (op : BinOp) : op.token.type.isInfix = true := by
  cases op <;> rfl

theorem BinOp.precedence_pos (op : BinOp) : 0 < op.precedence := by
  cases op <;> decide

theorem Expr.level_pos (e : Expr) : 0 < e.level := by
  cases e with
  | atom a => exact Nat.zero_lt_succ _
  | binary l op r => exact op.precedence_pos

theorem Atom.type (a : Atom) : a.token.type = .identifier ∨ a.token.type = .int := by
  cases a with
  | name n => exact .inl rfl
  | number d => exact .inr rfl

/-- On the tokens of an expression, `parse` goes on as its loop does with the expression. -/
theorem Expr.parses (e : Expr) {p : Nat} {toks rest : List Token} {e' : SqlExpr} (hp : p < e.level)
    (hnext : nextPrecedence toks ≤ e.level) (h : Continues p e.toSql toks e' rest) :
    Parses p (e.render ++ toks) e' rest := by
  induction e generalizing p toks rest e' with
  | atom a => exact .intro (.atom a.type toks) h
  | binary left op right ihl ihr =>
    -- an operand in parentheses is a prefix of its own
    have hwrap : ∀ {o : Expr} (toks : List Token), (∀ {p : Nat} {toks rest : List Token} {e' : SqlExpr},
        p < o.level → nextPrecedence toks ≤ o.level → Continues p o.toSql toks e' rest →
        Parses p (o.render ++ toks) e' rest) →
        Begins (lparen :: (o.render ++ rparen :: toks)) o.toSql toks := by
      intro o toks iho
      exact Begins.paren (t := lparen) rfl
        (iho o.level_pos (Nat.zero_le _) (.stop (show nextPrecedence (rparen :: toks) ≤ 0 from Nat.le_refl 0) _))
    have hright : Parses op.precedence (wrap (right.level ≤ op.precedence) right.render ++ toks)
        right.toSql toks := by
      rw [wrap]
      by_cases hle : right.level ≤ op.precedence
      · rw [if_pos (by simpa using hle), List.cons_append, List.append_assoc, List.singleton_append]
        exact .intro (hwrap toks ihr) (.stop hnext _)
      · rw [if_neg (by simpa using hle)]
        exact ihr (by omega) (Nat.le_trans hnext (Nat.le_of_lt (Nat.lt_of_not_le hle))) (.stop hnext _)
    have hloop : Continues p left.toSql
        (op.token :: (wrap (right.level ≤ op.precedence) right.render ++ toks)) e' rest :=
      .step op.isInfix hp hright h
    rw [Expr.render, List.append_assoc, List.cons_append, wrap]
    by_cases hlt : left.level < op.precedence
    · rw [if_pos (by simpa using hlt), List.cons_append, List.append_assoc, List.singleton_append]
      exact .intro (hwrap _ ihl) hloop
    · rw [if_neg (by simpa using hlt)]
      exact ihl (Nat.lt_of_lt_of_le hp (Nat.le_of_not_lt hlt)) (Nat.le_of_not_lt hlt) hloop

theorem Expr.parses_all (e : Expr) : Parses 0 e.render e.toSql [] := by
  have := e.parses e.level_pos (show nextPrecedence [] ≤ e.level from Nat.zero_le _)
    (.stop (Nat.le_refl 0) _)
  rwa [List.append_nil] at this

/-- The items behind the first one. -/
theorem projectionItems_render (items : List ProjItem) {t u : Token} (toks : List Token)
    (ht : t.type ≠ .comma) :
    projectionItems (items.flatMap (fun i => [comma, i.token]) ++ t :: u :: toks) =
      (.ok (items.map fun i => .identifier i.token.literal), t :: u :: toks) := by
  induction items with
  | nil => simp [projectionItems, ht]
  | cons i items ih =>
    have htype : comma.type = .comma := rfl
    simp only [List.flatMap_cons, List.cons_append, List.nil_append, projectionItems, htype, if_true, ih,
      List.map_cons]

theorem populateProjectionList_render (s : Select) {t u : Token} (toks : List Token)
    (ht : t.type ≠ .comma) :
    populateProjectionList (s.first.token :: (s.items.flatMap (fun i => [comma, i.token]) ++
      t :: u :: toks)) =
      (.ok ((s.first :: s.items).map fun i => .identifier i.token.literal), t :: u :: toks) := by
  have hfirst : ¬ (s.first.token.type ≠ .asterisk ∧ s.first.token.type ≠ .identifier) := by
    cases s.first <;> simp [ProjItem.token]
  rw [populateProjectionList, Prog.bind_ok (peekToken_eq_ok.mpr ⟨rfl, _, rfl⟩), if_neg hfirst,
    Prog.bind_ok (takeToken_eq_ok.mpr rfl), Prog.bind_ok (projectionItems_render s.items toks ht)]
  rfl

theorem Select.parses_all (s : Select) : Parses 0 s.render s.toSql [] := by
  have hproj := fun toks => populateProjectionList_render s (t := keyword "FROM")
    (u := ⟨.identifier, s.table.1⟩) toks (by decide)
  have hselects : Selects s.render.tail s.toSql [] := by
    rw [Select.render, Select.toSql, List.tail_cons]
    cases hsel : s.selection with
    | none => exact .all (hproj []) rfl rfl
    | some e => exact .filtered (hproj (keyword "WHERE" :: e.render)) rfl (by simp [atWhere, keyword]) e.parses_all
  exact .intro (.keyword (t := keyword "SELECT") rfl hselects) (.stop (Nat.le_refl 0) _)

theorem Query.parses_all (q : Query) : Parses 0 q.render q.toSql [] := by
  cases q with
  | expr e => exact e.parses_all
  | select s => exact s.parses_all

/-! ## Lexing -/

open Lexer (Lexeme Spaced)

theorem lexeme_name (n : Name) : Lexeme ⟨.identifier, n.1⟩ := by
  have h := Lexeme.word n.2.1 n.2.2.1
  rwa [Token.getStringType, if_neg n.2.2.2] at h

theorem lexeme_keyword {w : String} (hw : w.toList ∈ Token.keywords)
    (hne : w.toList ≠ []) (hall : w.toList.all isLetter = true) : Lexeme (keyword w) := by
  have h := Lexeme.word hne (List.all_eq_true.mp hall)
  rwa [Token.getStringType, if_pos hw] at h

theorem lexeme_operator (op : BinOp) : Lexeme op.token := by
  cases op with
  | lt => exact .lt
  | gt => exact .gt
  | le => exact .ltEq
  | ge => exact .gtEq
  | eq | add | sub | mul | div => exact .symbol rfl

theorem lexeme_item (i : ProjItem) : Lexeme i.token := by
  cases i with
  | star => exact .symbol rfl
  | name n => exact lexeme_name n

theorem lexeme_wrap {b : Bool} {toks : List Token} (h : ∀ t ∈ toks, Lexeme t) :
    ∀ t ∈ wrap b toks, Lexeme t := by
  intro t ht
  rw [wrap] at ht
  split at ht
  · rcases List.mem_cons.mp ht with rfl | ht
    · exact .symbol rfl
    · rcases List.mem_append.mp ht with ht | ht
      · exact h t ht
      · rw [List.mem_singleton.mp ht]
        exact .symbol rfl
  · exact h t ht

theorem Expr.lexemes (e : Expr) : ∀ t ∈ e.render, Lexeme t := by
  induction e with
  | atom a =>
    intro t ht
    rw [List.mem_singleton.mp ht]
    cases a with
    | name n => exact lexeme_name n
    | number d => exact .int d.2.1 d.2.2
  | binary left op right ihl ihr =>
    intro t ht
    rcases List.mem_append.mp ht with ht | ht
    · exact lexeme_wrap ihl t ht
    · rcases List.mem_cons.mp ht with rfl | ht
      · exact lexeme_operator op
      · exact lexeme_wrap ihr t ht

theorem Select.lexemes (s : Select) : ∀ t ∈ s.render, Lexeme t := by
  intro t ht
  simp only [Select.render, List.mem_cons, List.mem_append, List.mem_flatMap, List.not_mem_nil,
    or_false] at ht
  rcases ht with rfl | rfl | ⟨i, -, rfl | rfl⟩ | rfl | rfl | ht
  · exact lexeme_keyword (by decide) (by decide) (by decide)
  · exact lexeme_item s.first
  · exact .symbol rfl
  · exact lexeme_item i
  · exact lexeme_keyword (by decide) (by decide) (by decide)
  · exact lexeme_name s.table
  · cases hsel : s.selection with
    | none => simp [hsel] at ht
    | some e =>
      simp only [hsel, List.mem_cons] at ht
      rcases ht with rfl | ht
      · exact lexeme_keyword (by decide) (by decide) (by decide)
      · exact e.lexemes t ht

theorem Query.lexemes (q : Query) : ∀ t ∈ q.render, Lexeme t := by
  cases q with
  | expr e => exact e.lexemes
  | select s => exact s.lexemes

/-- **Parsing undoes rendering.** The text of an expression or of a statement is parsed to its tree, and
every token of it is read. -/
theorem parseText_render (q : Query) {text : List Char} (htext : Spaced q.render text)
    (hlen : text.length < 65535) :
    ∃ n, ∀ fuel, n ≤ fuel → parseText fuel text = (.ok q.toSql, []) := by
  obtain ⟨n, hparse⟩ := q.parses_all
  refine ⟨max n (text.length + 2), fun fuel hfuel => ?_⟩
  obtain ⟨lx, hlex⟩ := Lexer.populateTokens_spaced htext q.lexemes
    (show ∀ c ∈ ([] : List Char), isBlank c = true by simp)
    (show ([] ++ ([] ++ text)).length < 65536 by rw [List.nil_append, List.nil_append]; omega)
    (show ([] ++ text).length + 1 < fuel by rw [List.nil_append]; omega) ⟨.illegal, []⟩
  have hnew : Lexer.new text = Lexer.after [] ([] ++ text) := Lexer.new_eq text
  rw [parseText, hnew, hlex]
  exact parse_le (Nat.le_trans (Nat.le_max_left ..) hfuel) hparse

/-- A name and a number of one character. -/
def nameOf (c : Char) (h : [c].all isLetter = true) (hk : [c] ∉ Token.keywords) : Name :=
  ⟨[c], by simp, List.all_eq_true.mp h, hk⟩
def digitOf (c : Char) (h : [c].all isDigit = true) : Digits := ⟨[c], by simp, List.all_eq_true.mp h⟩

/-- `SELECT a FROM t WHERE a * ( 1 + 2 )`. -/
def sampleQuery : Query := .select
  { first := .name (nameOf 'a' (by decide) (by decide))
    items := []
    table := nameOf 't' (by decide) (by decide)
    selection := some (.binary (.atom (.name (nameOf 'a' (by decide) (by decide)))) .mul
      (.binary (.atom (.number (digitOf '1' (by decide)))) .add
        (.atom (.number (digitOf '2' (by decide)))))) }

theorem parseText_render_sample :
    ∃ n, ∀ fuel, n ≤ fuel → parseText fuel "SELECT a FROM t WHERE a * ( 1 + 2 )".toList =
      (.ok (.select ['t'] [.identifier ['a']] (some (.binary (.identifier ['a']) ['*']
        (.binary (.identifier ['1']) ['+'] (.identifier ['2']))))), []) := by
  have hne : [' '] ≠ [] := by simp
  have hb : ∀ c ∈ [' '], isBlank c = true := by simp [isBlank]
  have hspaced : Spaced sampleQuery.render "SELECT a FROM t WHERE a * ( 1 + 2 )".toList :=
    .cons _ hne hb <| .cons _ hne hb <| .cons _ hne hb <| .cons _ hne hb <| .cons _ hne hb <|
    .cons _ hne hb <| .cons _ hne hb <| .cons _ hne hb <| .cons _ hne hb <| .cons _ hne hb <|
    .cons _ hne hb <| .single _
  exact parseText_render sampleQuery hspaced (by decide)

end SomeDB
