import SomeDB.Sql.Lexer

/-!
# The parser (`parser.cpp`)

The state of the parser is the list of its tokens from `position + 1` on: `nextTokenPos` drops the first of
them, `peekTokenPos` looks at it, and reading a token when there is none is `std::out_of_range`. Positions
are integers without bounds: a lexer reads its input through 16 bits, so the tokens of a parser never come
near the bound of an `int`.

The functions call each other and have fuel for it; more fuel does not change what they return
(`parser_mono`). `Parses`, `Continues`, `Begins` and `Selects` say what they return with enough fuel.
-/

namespace SomeDB

open Lib

/-- `SqlExpr` with `SqlBinaryExpr`, `SqlIdentifier` and `SqlSelect`. -/
inductive SqlExpr where
  | binary (left : SqlExpr) (op : CString) (right : SqlExpr)
  | identifier (identifier : CString)
  | select (tableName : CString) (projection : List SqlExpr) (selection : Option SqlExpr)

/-- Why the parser does not return. -/
inductive ParseError where
  | outOfRange
  | runtimeError (what : CString)
  | diverges
  deriving DecidableEq

abbrev ParseM (α : Type) := Prog ParseError (List Token) α

/-- The precedence of a token, as in `nextPrecedence`. -/
def TokenType.precedence : TokenType → Nat
  | .equals | .gtEq | .ltEq | .lt | .gt => 1
  | .plus | .minus => 2
  | .slash | .asterisk => 3
  | .lparen => 4
  | _ => 0

/-- The tokens that `parseInfix` takes. -/
def TokenType.isInfix : TokenType → Bool
  | .plus | .minus | .asterisk | .slash | .equals | .lt | .gt | .gtEq | .ltEq => true
  | _ => false

namespace Parser

/-- `tokens.at(nextTokenPos())`. -/
def takeToken : ParseM Token
  | [] => (.error .outOfRange, [])
  | t :: toks => (.ok t, toks)

/-- `nextTokenPos()`, without a look at the token. -/
def skipToken : ParseM Unit := fun toks => (.ok (), toks.tail)

/-- `tokens.at(peekTokenPos())`. -/
def peekToken : ParseM Token
  | [] => (.error .outOfRange, [])
  | t :: toks => (.ok t, t :: toks)

/-- `nextPrecedence`. -/
def nextPrecedence : List Token → Nat
  | [] => 0
  | t :: _ => t.type.precedence

/-- The loop of `populateProjectionList`. -/
def projectionItems : ParseM (List SqlExpr)
  | [] => (.error .outOfRange, [])
  | [t] => if t.type = .comma then (.error .outOfRange, []) else (.ok [], [t])
  | t :: u :: toks =>
    if t.type = .comma then
      match projectionItems toks with
      | (.ok items, rest) => (.ok (.identifier u.literal :: items), rest)
      | (.error e, rest) => (.error e, rest)
    else (.ok [], t :: u :: toks)

/-- `populateProjectionList`. -/
def populateProjectionList : ParseM (List SqlExpr) := do
  let peek ← peekToken
  if peek.type ≠ .asterisk ∧ peek.type ≠ .identifier then
    Prog.fault (.runtimeError
      ("Projection needs to start with identifier or *, but started with ".toList ++ peek.literal))
  else do
    let first ← takeToken
    let items ← projectionItems
    pure (.identifier first.literal :: items)

/-- Is the next token `WHERE`? -/
def atWhere : List Token → Bool
  | [] => false
  | t :: _ => t.literal = "WHERE".toList

mutual

/-- `parse`. -/
def parse : Nat → Nat → ParseM SqlExpr
  | 0, _ => Prog.fault .diverges
  | fuel + 1, precedence => do
    let expr ← parsePrefix fuel
    parseWhile fuel precedence expr

/-- The loop of `parse`. -/
def parseWhile : Nat → Nat → SqlExpr → ParseM SqlExpr
  | 0, _, _ => Prog.fault .diverges
  | fuel + 1, precedence, expr => do
    let next := nextPrecedence (← Prog.get)
    if precedence < next then do
      let expr ← parseInfix fuel expr next
      parseWhile fuel precedence expr
    else pure expr

/-- `parsePrefix`. Every keyword is taken for `SELECT`. -/
def parsePrefix : Nat → ParseM SqlExpr
  | 0 => Prog.fault .diverges
  | fuel + 1 => do
    let tok ← takeToken
    match tok.type with
    | .identifier | .int => pure (.identifier tok.literal)
    | .lparen => do
      let expr ← parse fuel 0
      skipToken
      pure expr
    | .keyword => parseSelectStatement fuel
    | _ => Prog.fault (.runtimeError "Unsupported prefix token".toList)

/-- `parseInfix`. -/
def parseInfix : Nat → SqlExpr → Nat → ParseM SqlExpr
  | 0, _, _ => Prog.fault .diverges
  | fuel + 1, left, precedence => do
    let tok ← peekToken
    if tok.type.isInfix then do
      skipToken
      let right ← parse fuel precedence
      pure (.binary left tok.literal right)
    else Prog.fault (.runtimeError "Unsupported infix token".toList)

/-- `parseSelectStatement`. -/
def parseSelectStatement : Nat → ParseM SqlExpr
  | 0 => Prog.fault .diverges
  | fuel + 1 => do
    let projection ← populateProjectionList
    let tok ← takeToken
    if tok.literal ≠ "FROM".toList then
      Prog.fault (.runtimeError ("Invalid SELECT statement near: ".toList ++ tok.literal))
    else do
      let table ← takeToken
      if atWhere (← Prog.get) then do
        skipToken
        let selection ← parse fuel 0
        pure (.select table.literal projection (some selection))
      else pure (.select table.literal projection none)

end

/-- `Parser(Lexer(text)).parse()`: what is returned, and the tokens that are left. -/
def parseText (fuel : Nat) (text : List Char) : Except ParseError SqlExpr × List Token :=
  match Lexer.populateTokens fuel ⟨.illegal, []⟩ (Lexer.new text) with
  | (.ok tokens, _) => parse fuel 0 tokens
  | (.error _, _) => (.error .diverges, [])

/-! ## What the functions return -/

section Equations

variable {fuel p : Nat} {toks rest : List Token} {e left : SqlExpr}

theorem takeToken_eq_ok {t : Token} : takeToken toks = (.ok t, rest) ↔ toks = t :: rest := by
  cases toks with
  | nil => simp [takeToken]
  | cons u toks => simp [takeToken]

theorem peekToken_eq_ok {t : Token} :
    peekToken toks = (.ok t, rest) ↔ rest = toks ∧ ∃ toks', toks = t :: toks' := by
  cases toks with
  | nil => simp [peekToken]
  | cons u toks => simp [peekToken, and_comm, eq_comm]

theorem parse_eq_ok : parse (fuel + 1) p toks = (.ok e, rest) ↔
    ∃ e₁ toks₁, parsePrefix fuel toks = (.ok e₁, toks₁) ∧ parseWhile fuel p e₁ toks₁ = (.ok e, rest) := by
  rw [parse]
  constructor
  · exact Prog.bind_eq_ok
  · rintro ⟨e₁, toks₁, h₁, h₂⟩
    rw [Prog.bind_ok h₁, h₂]

theorem parseWhile_eq_ok : parseWhile (fuel + 1) p left toks = (.ok e, rest) ↔
    (nextPrecedence toks ≤ p ∧ e = left ∧ rest = toks) ∨
    (p < nextPrecedence toks ∧ ∃ e₁ toks₁,
      parseInfix fuel left (nextPrecedence toks) toks = (.ok e₁, toks₁) ∧
      parseWhile fuel p e₁ toks₁ = (.ok e, rest)) := by
  rw [parseWhile, Prog.get_bind]
  by_cases hp : p < nextPrecedence toks
  · simp only [if_pos hp]
    constructor
    · intro h
      exact .inr ⟨hp, Prog.bind_eq_ok h⟩
    · rintro (⟨hle, -⟩ | ⟨-, e₁, toks₁, h₁, h₂⟩)
      · omega
      · rw [Prog.bind_ok h₁, h₂]
  · simp only [if_neg hp]
    constructor
    · intro h
      cases h
      exact .inl ⟨by omega, rfl, rfl⟩
    · rintro (⟨-, rfl, rfl⟩ | ⟨hlt, -⟩)
      · rfl
      · exact absurd hlt hp

theorem parsePrefix_eq_ok : parsePrefix (fuel + 1) toks = (.ok e, rest) ↔
    ∃ t toks₁, toks = t :: toks₁ ∧
      (((t.type = .identifier ∨ t.type = .int) ∧ e = .identifier t.literal ∧ rest = toks₁) ∨
        (t.type = .lparen ∧ ∃ toks₂, parse fuel 0 toks₁ = (.ok e, toks₂) ∧ rest = toks₂.tail) ∨
        (t.type = .keyword ∧ parseSelectStatement fuel toks₁ = (.ok e, rest))) := by
  rw [parsePrefix]
  constructor
  · intro h
    obtain ⟨t, toks₁, h₁, h⟩ := Prog.bind_eq_ok h
    refine ⟨t, toks₁, takeToken_eq_ok.mp h₁, ?_⟩
    cases htype : t.type with
    | identifier | int =>
      simp only [htype] at h
      cases h
      simp
    | lparen =>
      simp only [htype] at h
      obtain ⟨e₁, toks₂, h₂, h⟩ := Prog.bind_eq_ok h
      cases h
      exact .inr (.inl ⟨rfl, toks₂, h₂, rfl⟩)
    | keyword =>
      simp only [htype] at h
      exact .inr (.inr ⟨rfl, h⟩)
    | _ =>
      simp only [htype] at h
      cases h
  · rintro ⟨t, toks₁, rfl, ⟨htype | htype, rfl, rfl⟩ | ⟨htype, toks₂, h, rfl⟩ | ⟨htype, h⟩⟩
    · rw [Prog.bind_ok (takeToken_eq_ok.mpr rfl)]
      simp only [htype]
      rfl
    · rw [Prog.bind_ok (takeToken_eq_ok.mpr rfl)]
      simp only [htype]
      rfl
    · rw [Prog.bind_ok (takeToken_eq_ok.mpr rfl)]
      simp only [htype]
      rw [Prog.bind_ok h]
      rfl
    · rw [Prog.bind_ok (takeToken_eq_ok.mpr rfl)]
      simp only [htype]
      exact h

theorem parseInfix_eq_ok : parseInfix (fuel + 1) left p toks = (.ok e, rest) ↔
    ∃ t toks₁ right, toks = t :: toks₁ ∧ t.type.isInfix = true ∧
      parse fuel p toks₁ = (.ok right, rest) ∧ e = .binary left t.literal right := by
  rw [parseInfix]
  constructor
  · intro h
    obtain ⟨t, toks₁, h₁, h₂⟩ := Prog.bind_eq_ok h
    obtain ⟨rfl, toks₂, rfl⟩ := peekToken_eq_ok.mp h₁
    split at h₂
    · next hop =>
      obtain ⟨_, toks₃, h₃, h₄⟩ := Prog.bind_eq_ok h₂
      cases h₃
      obtain ⟨right, toks₃, h₅, h₆⟩ := Prog.bind_eq_ok h₄
      cases h₆
      exact ⟨t, toks₂, right, rfl, hop, h₅, rfl⟩
    · cases h₂
  · rintro ⟨t, toks₁, right, rfl, hop, h, rfl⟩
    rw [Prog.bind_ok (peekToken_eq_ok.mpr ⟨rfl, toks₁, rfl⟩), if_pos hop]
    have hskip : skipToken (t :: toks₁) = (.ok (), toks₁) := rfl
    rw [Prog.bind_ok hskip, Prog.bind_ok h]
    rfl

theorem parseSelectStatement_eq_ok : parseSelectStatement (fuel + 1) toks = (.ok e, rest) ↔
    ∃ projection kw table toks₁, populateProjectionList toks = (.ok projection, kw :: table :: toks₁) ∧
      kw.literal = "FROM".toList ∧
      ((atWhere toks₁ = true ∧ ∃ selection, parse fuel 0 toks₁.tail = (.ok selection, rest) ∧
          e = .select table.literal projection (some selection)) ∨
        (atWhere toks₁ = false ∧ rest = toks₁ ∧ e = .select table.literal projection none)) := by
  rw [parseSelectStatement]
  constructor
  · intro h
    obtain ⟨projection, toks₁, h₁, hk₁⟩ := Prog.bind_eq_ok h
    obtain ⟨kw, toks₂, h₂, hk₂⟩ := Prog.bind_eq_ok hk₁
    obtain rfl := takeToken_eq_ok.mp h₂
    split at hk₂
    · cases hk₂
    · next hfrom =>
      obtain ⟨table, toks₃, h₃, hk₃⟩ := Prog.bind_eq_ok hk₂
      obtain rfl := takeToken_eq_ok.mp h₃
      refine ⟨projection, kw, table, toks₃, h₁, not_not.mp hfrom, ?_⟩
      rw [Prog.get_bind] at hk₃
      split at hk₃
      · next hwhere =>
        obtain ⟨_, toks₄, h₄, hk₄⟩ := Prog.bind_eq_ok hk₃
        cases h₄
        obtain ⟨selection, toks₅, h₅, hk₅⟩ := Prog.bind_eq_ok hk₄
        cases hk₅
        exact .inl ⟨hwhere, selection, h₅, rfl⟩
      · next hwhere =>
        cases hk₃
        exact .inr ⟨Bool.eq_false_iff.mpr hwhere, rfl, rfl⟩
  · rintro ⟨projection, kw, table, toks₁, h₁, hfrom, h⟩
    rw [Prog.bind_ok h₁, Prog.bind_ok (takeToken_eq_ok.mpr rfl), if_neg (not_not.mpr hfrom),
      Prog.bind_ok (takeToken_eq_ok.mpr rfl), Prog.get_bind]
    rcases h with ⟨hwhere, selection, h, rfl⟩ | ⟨hwhere, rfl, rfl⟩
    · have hskip : skipToken toks₁ = (.ok (), toks₁.tail) := rfl
      rw [if_pos hwhere, Prog.bind_ok hskip, Prog.bind_ok h]
      rfl
    · rw [if_neg (by simp [hwhere])]
      rfl

end Equations

/-! ## More fuel -/

/-- What the functions return with `fuel`, they return with one more. -/
structure Mono (fuel : Nat) : Prop where
  parse : ∀ {p toks e rest}, parse fuel p toks = (.ok e, rest) → parse (fuel + 1) p toks = (.ok e, rest)
  parseWhile : ∀ {p left toks e rest}, parseWhile fuel p left toks = (.ok e, rest) →
    parseWhile (fuel + 1) p left toks = (.ok e, rest)
  parsePrefix : ∀ {toks e rest}, parsePrefix fuel toks = (.ok e, rest) →
    parsePrefix (fuel + 1) toks = (.ok e, rest)
  parseInfix : ∀ {left p toks e rest}, parseInfix fuel left p toks = (.ok e, rest) →
    parseInfix (fuel + 1) left p toks = (.ok e, rest)
  parseSelectStatement : ∀ {toks e rest}, parseSelectStatement fuel toks = (.ok e, rest) →
    parseSelectStatement (fuel + 1) toks = (.ok e, rest)

theorem parser_mono (fuel : Nat) : Mono fuel := by
  induction fuel with
  | zero =>
    constructor <;> intros <;> rename_i h
    · rw [parse] at h; cases h
    · rw [parseWhile] at h; cases h
    · rw [parsePrefix] at h; cases h
    · rw [parseInfix] at h; cases h
    · rw [parseSelectStatement] at h; cases h
  | succ fuel ih =>
    constructor
    · intro p toks e rest h
      obtain ⟨e₁, toks₁, h₁, h₂⟩ := parse_eq_ok.mp h
      exact parse_eq_ok.mpr ⟨e₁, toks₁, ih.parsePrefix h₁, ih.parseWhile h₂⟩
    · intro p left toks e rest h
      rcases parseWhile_eq_ok.mp h with hstop | ⟨hp, e₁, toks₁, h₁, h₂⟩
      · exact parseWhile_eq_ok.mpr (.inl hstop)
      · exact parseWhile_eq_ok.mpr (.inr ⟨hp, e₁, toks₁, ih.parseInfix h₁, ih.parseWhile h₂⟩)
    · intro toks e rest h
      obtain ⟨t, toks₁, htoks, hatom | ⟨htype, toks₂, h, hrest⟩ | ⟨htype, h⟩⟩ := parsePrefix_eq_ok.mp h
      · exact parsePrefix_eq_ok.mpr ⟨t, toks₁, htoks, .inl hatom⟩
      · exact parsePrefix_eq_ok.mpr ⟨t, toks₁, htoks, .inr (.inl ⟨htype, toks₂, ih.parse h, hrest⟩)⟩
      · exact parsePrefix_eq_ok.mpr ⟨t, toks₁, htoks, .inr (.inr ⟨htype, ih.parseSelectStatement h⟩)⟩
    · intro left p toks e rest h
      obtain ⟨t, toks₁, right, htoks, hop, h, he⟩ := parseInfix_eq_ok.mp h
      exact parseInfix_eq_ok.mpr ⟨t, toks₁, right, htoks, hop, ih.parse h, he⟩
    · intro toks e rest h
      obtain ⟨projection, kw, table, toks₁, h₁, hfrom, ⟨hwhere, selection, h, he⟩ | hnone⟩ :=
        parseSelectStatement_eq_ok.mp h
      · exact parseSelectStatement_eq_ok.mpr ⟨projection, kw, table, toks₁, h₁, hfrom,
          .inl ⟨hwhere, selection, ih.parse h, he⟩⟩
      · exact parseSelectStatement_eq_ok.mpr ⟨projection, kw, table, toks₁, h₁, hfrom, .inr hnone⟩

section Fuel

variable {n n' p : Nat} {toks rest : List Token} {e left : SqlExpr}

theorem parse_le (hn : n ≤ n') (h : parse n p toks = (.ok e, rest)) : parse n' p toks = (.ok e, rest) := by
  induction hn with
  | refl => exact h
  | step _ ih => exact (parser_mono _).parse ih

theorem parseWhile_le (hn : n ≤ n') (h : parseWhile n p left toks = (.ok e, rest)) :
    parseWhile n' p left toks = (.ok e, rest) := by
  induction hn with
  | refl => exact h
  | step _ ih => exact (parser_mono _).parseWhile ih

theorem parsePrefix_le (hn : n ≤ n') (h : parsePrefix n toks = (.ok e, rest)) :
    parsePrefix n' toks = (.ok e, rest) := by
  induction hn with
  | refl => exact h
  | step _ ih => exact (parser_mono _).parsePrefix ih

end Fuel

/-! ## Results with enough fuel -/

/-- `parse` returns. -/
def Parses (precedence : Nat) (toks : List Token) (e : SqlExpr) (rest : List Token) : Prop :=
  ∃ fuel, parse fuel precedence toks = (.ok e, rest)

/-- The loop of `parse` returns. -/
def Continues (precedence : Nat) (left : SqlExpr) (toks : List Token) (e : SqlExpr) (rest : List Token) :
    Prop :=
  ∃ fuel, parseWhile fuel precedence left toks = (.ok e, rest)

/-- `parsePrefix` returns. -/
def Begins (toks : List Token) (e : SqlExpr) (rest : List Token) : Prop :=
  ∃ fuel, parsePrefix fuel toks = (.ok e, rest)

/-- `parseSelectStatement` returns. -/
def Selects (toks : List Token) (e : SqlExpr) (rest : List Token) : Prop :=
  ∃ fuel, parseSelectStatement fuel toks = (.ok e, rest)

section Rules

variable {p : Nat} {t : Token} {toks toks₁ rest : List Token} {e e₁ left right : SqlExpr}

theorem Parses.intro (h₁ : Begins toks e₁ toks₁) (h₂ : Continues p e₁ toks₁ e rest) :
    Parses p toks e rest := by
  obtain ⟨n₁, h₁⟩ := h₁
  obtain ⟨n₂, h₂⟩ := h₂
  exact ⟨max n₁ n₂ + 1, parse_eq_ok.mpr ⟨e₁, toks₁, parsePrefix_le (Nat.le_max_left ..) h₁,
    parseWhile_le (Nat.le_max_right ..) h₂⟩⟩

theorem Continues.stop (h : nextPrecedence toks ≤ p) (e : SqlExpr) : Continues p e toks e toks :=
  ⟨1, parseWhile_eq_ok.mpr (.inl ⟨h, rfl, rfl⟩)⟩

theorem Continues.step (hop : t.type.isInfix = true) (hp : p < t.type.precedence)
    (h₁ : Parses t.type.precedence toks right toks₁)
    (h₂ : Continues p (.binary left t.literal right) toks₁ e rest) :
    Continues p left (t :: toks) e rest := by
  obtain ⟨n₁, h₁⟩ := h₁
  obtain ⟨n₂, h₂⟩ := h₂
  refine ⟨max n₁ n₂ + 2, parseWhile_eq_ok.mpr (.inr ⟨hp, _, toks₁, ?_,
    parseWhile_le (Nat.le_succ_of_le (Nat.le_max_right ..)) h₂⟩)⟩
  exact parseInfix_eq_ok.mpr ⟨t, toks, right, rfl, hop, parse_le (Nat.le_max_left ..) h₁, rfl⟩

theorem Begins.atom (h : t.type = .identifier ∨ t.type = .int) (toks : List Token) :
    Begins (t :: toks) (.identifier t.literal) toks :=
  ⟨1, parsePrefix_eq_ok.mpr ⟨t, toks, rfl, .inl ⟨h, rfl, rfl⟩⟩⟩

theorem Begins.paren (h : t.type = .lparen) (hparse : Parses 0 toks e rest) :
    Begins (t :: toks) e rest.tail := by
  obtain ⟨n, hparse⟩ := hparse
  exact ⟨n + 1, parsePrefix_eq_ok.mpr ⟨t, toks, rfl, .inr (.inl ⟨h, rest, hparse, rfl⟩)⟩⟩

theorem Begins.keyword (h : t.type = .keyword) (hselect : Selects toks e rest) :
    Begins (t :: toks) e rest := by
  obtain ⟨n, hselect⟩ := hselect
  exact ⟨n + 1, parsePrefix_eq_ok.mpr ⟨t, toks, rfl, .inr (.inr ⟨h, hselect⟩)⟩⟩

variable {projection : List SqlExpr} {kw table : Token}

theorem Selects.all (hproj : populateProjectionList toks = (.ok projection, kw :: table :: toks₁))
    (hkw : kw.literal = "FROM".toList) (hwhere : atWhere toks₁ = false) :
    Selects toks (.select table.literal projection none) toks₁ :=
  ⟨1, parseSelectStatement_eq_ok.mpr
    ⟨projection, kw, table, toks₁, hproj, hkw, .inr ⟨hwhere, rfl, rfl⟩⟩⟩

theorem Selects.filtered (hproj : populateProjectionList toks = (.ok projection, kw :: table :: toks₁))
    (hkw : kw.literal = "FROM".toList) (hwhere : atWhere toks₁ = true)
    (hparse : Parses 0 toks₁.tail e rest) :
    Selects toks (.select table.literal projection (some e)) rest := by
  obtain ⟨n, hparse⟩ := hparse
  exact ⟨n + 1, parseSelectStatement_eq_ok.mpr
    ⟨projection, kw, table, toks₁, hproj, hkw, .inl ⟨hwhere, e, hparse, rfl⟩⟩⟩

end Rules

end Parser

end SomeDB
