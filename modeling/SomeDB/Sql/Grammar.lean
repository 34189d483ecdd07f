import SomeDB.Sql.Parser

/-!
# What the parser accepts

`Sentence` is the grammar. `Reads false` is what the parser reads: it has the rules of the grammar and some
lax ones, and it stops at the first token that continues nothing. `Reads true` has the rules of the
grammar only. A lax rule takes

* a parenthesis that is not closed,
* a statement as an operand, or one that begins with another keyword than `SELECT`,
* any token as an item of the projection behind a comma, and as the name of the table,
* any token with the text of `FROM` or `WHERE` for the keyword.

The parser accepts only sentences exactly if it needs none of them (`parse_sentence_iff`).
-/

namespace SomeDB

open Lib SomeDB.Parser

/-! ## The grammar -/

/-- Identifiers and numbers. -/
def Token.IsAtom (t : Token) : Prop := t.type = .identifier ∨ t.type = .int

/-- Items of a projection. -/
def Token.IsItem (t : Token) : Prop := t.type = .asterisk ∨ t.type = .identifier

inductive Expression : List Token → Prop
  | atom {t : Token} (ht : t.IsAtom) : Expression [t]
  | binary {t : Token} {a b : List Token} (ha : Expression a) (ht : t.type.isInfix = true)
      (hb : Expression b) : Expression (a ++ t :: b)
  | paren {l r : Token} {a : List Token} (hl : l.type = .lparen) (ha : Expression a)
      (hr : r.type = .rparen) : Expression (l :: (a ++ [r]))

/-- The items of a projection behind the first one, with their commas. -/
inductive ItemList : List Token → Prop
  | nil : ItemList []
  | cons {c i : Token} {toks : List Token} (hc : c.type = .comma) (hi : i.IsItem) (h : ItemList toks) :
      ItemList (c :: i :: toks)

/-- An optional `WHERE`. -/
inductive Filter : List Token → Prop
  | none : Filter []
  | some {w : Token} {toks : List Token} (hw : w = ⟨.keyword, "WHERE".toList⟩) (h : Expression toks) :
      Filter (w :: toks)

/-- A statement without its `SELECT`. -/
inductive Statement : List Token → Prop
  | mk {first kw table : Token} {items filter : List Token} (hfirst : first.IsItem) (hitems : ItemList items)
      (hkw : kw = ⟨.keyword, "FROM".toList⟩) (htable : table.type = .identifier) (hfilter : Filter filter) :
      Statement (first :: (items ++ kw :: table :: filter))

/-- Nothing is left but a semicolon. -/
def Ended (rest : List Token) : Prop := rest = [] ∨ rest = [⟨.semicolon, [';']⟩]

/-- The whole list is an expression or a statement, apart from an optional semicolon at its end. -/
inductive Sentence : List Token → Prop
  | expression {toks semi : List Token} (h : Expression toks) (hsemi : Ended semi) :
      Sentence (toks ++ semi)
  | statement {t : Token} {toks semi : List Token} (ht : t = ⟨.keyword, "SELECT".toList⟩)
      (h : Statement toks) (hsemi : Ended semi) : Sentence (t :: toks ++ semi)

/-! ## What is read -/

/-- What is looked for. -/
inductive Goal where
  /-- An expression up to a token that does not bind tighter than `p`. -/
  | expr (p : Nat)
  /-- More operators and operands of such an expression. -/
  | more (p : Nat)
  | operand
  /-- A statement behind its first keyword. -/
  | statement
  /-- An expression or a statement. -/
  | query

/-- The items of a projection that are read behind the first one. -/
inductive ReadsItems (strict : Bool) : List Token → List Token → Prop
  | nil {t : Token} {toks : List Token} (ht : t.type ≠ .comma) :
      ReadsItems strict (t :: toks) (t :: toks)
  | cons {c i : Token} {toks rest : List Token} (hc : c.type = .comma)
      (hi : strict = true → i.IsItem) (h : ReadsItems strict toks rest) :
      ReadsItems strict (c :: i :: toks) rest

/-- `toks` begins with what is looked for, and `rest` is left. -/
inductive Reads : Bool → Goal → List Token → List Token → Prop
  | expr {strict : Bool} {p : Nat} {toks toks₁ rest : List Token} (h₁ : Reads strict .operand toks toks₁)
      (h₂ : Reads strict (.more p) toks₁ rest) : Reads strict (.expr p) toks rest
  | stop {strict : Bool} {p : Nat} {toks : List Token} (h : nextPrecedence toks ≤ p) :
      Reads strict (.more p) toks toks
  | step {strict : Bool} {p : Nat} {t : Token} {toks toks₁ rest : List Token} (ht : t.type.isInfix = true)
      (hp : p < t.type.precedence) (h₁ : Reads strict (.expr t.type.precedence) toks toks₁)
      (h₂ : Reads strict (.more p) toks₁ rest) : Reads strict (.more p) (t :: toks) rest
  | atom {strict : Bool} {t : Token} {toks : List Token} (ht : t.IsAtom) :
      Reads strict .operand (t :: toks) toks
  | paren {strict : Bool} {l r : Token} {toks rest : List Token} (hl : l.type = .lparen)
      (h : Reads strict (.expr 0) toks (r :: rest)) (hr : r.type = .rparen) :
      Reads strict .operand (l :: toks) rest
  /-- The token behind the expression is dropped, whatever it is. -/
  | unclosed {l : Token} {toks rest : List Token} (hl : l.type = .lparen)
      (h : Reads false (.expr 0) toks rest) : Reads false .operand (l :: toks) rest.tail
  /-- Any keyword begins a statement, wherever an operand may stand. -/
  | nested {t : Token} {toks rest : List Token} (ht : t.type = .keyword)
      (h : Reads false .statement toks rest) : Reads false .operand (t :: toks) rest
  | all {strict : Bool} {first kw table : Token} {toks rest : List Token} (hfirst : first.IsItem)
      (hitems : ReadsItems strict toks (kw :: table :: rest)) (hkw : kw.literal = "FROM".toList)
      (htypes : strict = true → kw.type = .keyword ∧ table.type = .identifier)
      (hwhere : atWhere rest = false) : Reads strict .statement (first :: toks) rest
  | filtered {strict : Bool} {first kw table w : Token} {toks toks₁ rest : List Token}
      (hfirst : first.IsItem) (hitems : ReadsItems strict toks (kw :: table :: w :: toks₁))
      (hkw : kw.literal = "FROM".toList) (hw : w.literal = "WHERE".toList)
      (htypes : strict = true → kw.type = .keyword ∧ table.type = .identifier ∧ w.type = .keyword)
      (h : Reads strict (.expr 0) toks₁ rest) : Reads strict .statement (first :: toks) rest
  | expression {strict : Bool} {toks rest : List Token} (h : Reads strict (.expr 0) toks rest) :
      Reads strict .query toks rest
  | select {strict : Bool} {t : Token} {toks rest : List Token} (ht : t = ⟨.keyword, "SELECT".toList⟩)
      (h : Reads strict .statement toks rest) (hrest : nextPrecedence rest = 0) :
      Reads strict .query (t :: toks) rest

/-! ## The parser reads this -/

theorem projectionItems_reads {toks rest : List Token} {items : List SqlExpr}
    (h : projectionItems toks = (.ok items, rest)) : ReadsItems false toks rest := by
  induction toks using projectionItems.induct generalizing items with
  | case1 => simp [projectionItems] at h
  | case2 t ht => simp [projectionItems, ht] at h
  | case3 t ht =>
    rw [projectionItems, if_neg ht] at h
    cases h
    exact .nil ht
  | case4 t u toks ht items₁ rest₁ hitems ih =>
    rw [projectionItems, if_pos ht, hitems] at h
    cases h
    exact .cons ht (by simp) (ih hitems)
  | case5 t u toks ht e rest₁ hitems ih =>
    rw [projectionItems, if_pos ht, hitems] at h
    cases h
  | case6 t u toks ht =>
    rw [projectionItems, if_neg ht] at h
    cases h
    exact .nil ht

theorem ReadsItems.projectionItems {strict : Bool} {toks rest : List Token}
    (h : ReadsItems strict toks rest) : ∃ items, projectionItems toks = (.ok items, rest) := by
  induction h with
  | @nil t toks ht =>
    cases toks with
    | nil => exact ⟨[], by rw [Parser.projectionItems, if_neg ht]⟩
    | cons u toks => exact ⟨[], by rw [Parser.projectionItems, if_neg ht]⟩
  | @cons c i toks rest hc hi h ih =>
    obtain ⟨items, ih⟩ := ih
    exact ⟨.identifier i.literal :: items, by rw [Parser.projectionItems, if_pos hc, ih]⟩

theorem populateProjectionList_reads {toks rest : List Token} {items : List SqlExpr}
    (h : populateProjectionList toks = (.ok items, rest)) :
    ∃ first toks₁, toks = first :: toks₁ ∧ first.IsItem ∧ ReadsItems false toks₁ rest := by
  rw [populateProjectionList] at h
  obtain ⟨first, toks₁, h₁, h₂⟩ := Prog.bind_eq_ok h
  obtain ⟨rfl, toks₂, rfl⟩ := peekToken_eq_ok.mp h₁
  split at h₂
  · cases h₂
  · next hitem =>
    obtain ⟨t, toks₃, h₃, h₄⟩ := Prog.bind_eq_ok h₂
    cases h₃
    obtain ⟨items₁, toks₄, h₅, h₆⟩ := Prog.bind_eq_ok h₄
    cases h₆
    refine ⟨first, toks₂, rfl, ?_, projectionItems_reads h₅⟩
    by_contra hnot
    exact hitem ⟨fun h => hnot (.inl h), fun h => hnot (.inr h)⟩

theorem ReadsItems.populateProjectionList {strict : Bool} {first : Token} {toks rest : List Token}
    (h : ReadsItems strict toks rest) (hfirst : first.IsItem) :
    ∃ items, populateProjectionList (first :: toks) = (.ok items, rest) := by
  obtain ⟨items, hitems⟩ := h.projectionItems
  refine ⟨.identifier first.literal :: items, ?_⟩
  have hitem : ¬ (first.type ≠ .asterisk ∧ first.type ≠ .identifier) := by
    rintro ⟨h₁, h₂⟩
    exact hfirst.elim h₁ h₂
  rw [Parser.populateProjectionList, Prog.bind_ok (peekToken_eq_ok.mpr ⟨rfl, _, rfl⟩), if_neg hitem,
    Prog.bind_ok (takeToken_eq_ok.mpr rfl), Prog.bind_ok hitems]
  rfl

theorem atWhere_eq_true {toks : List Token} (h : atWhere toks = true) :
    ∃ w toks₁, toks = w :: toks₁ ∧ w.literal = "WHERE".toList := by
  cases toks with
  | nil => cases h
  | cons w toks₁ => exact ⟨w, toks₁, rfl, of_decide_eq_true h⟩

/-- What the functions return with `fuel`, they have read. -/
structure Sound (fuel : Nat) : Prop where
  parse : ∀ {p toks e rest}, parse fuel p toks = (.ok e, rest) → Reads false (.expr p) toks rest
  parseWhile : ∀ {p left toks e rest}, parseWhile fuel p left toks = (.ok e, rest) →
    Reads false (.more p) toks rest
  parsePrefix : ∀ {toks e rest}, parsePrefix fuel toks = (.ok e, rest) → Reads false .operand toks rest
  parseInfix : ∀ {left p toks e rest}, parseInfix fuel left p toks = (.ok e, rest) →
    ∃ t toks₁, toks = t :: toks₁ ∧ t.type.isInfix = true ∧ Reads false (.expr p) toks₁ rest
  parseSelectStatement : ∀ {toks e rest}, parseSelectStatement fuel toks = (.ok e, rest) →
    Reads false .statement toks rest

theorem parser_sound (fuel : Nat) : Sound fuel := by
  induction fuel with
  | zero =>
    constructor <;> intros <;> rename_i h
    · rw [parse] at h; cases h
    · rw [parseWhile] at h; cases h
    · rw [parsePrefix] at h; cases h
    · rw [parseInfix] at h; cases h
    · rw [parseSelectStatement] at h; cases h
  | succ fuel ih =>
    constructor
    · intro p toks e rest h
      obtain ⟨e₁, toks₁, h₁, h₂⟩ := parse_eq_ok.mp h
      exact .expr (ih.parsePrefix h₁) (ih.parseWhile h₂)
    · intro p left toks e rest h
      rcases parseWhile_eq_ok.mp h with ⟨hle, -, rfl⟩ | ⟨hp, e₁, toks₁, h₁, h₂⟩
      · exact .stop hle
      · obtain ⟨t, toks₂, rfl, ht, h₃⟩ := ih.parseInfix h₁
        exact .step ht hp h₃ (ih.parseWhile h₂)
    · intro toks e rest h
      obtain ⟨t, toks₁, rfl, ⟨hatom, -, rfl⟩ | ⟨htype, toks₂, h₁, rfl⟩ | ⟨htype, h₁⟩⟩ :=
        parsePrefix_eq_ok.mp h
      · exact .atom hatom
      · exact .unclosed htype (ih.parse h₁)
      · exact .nested htype (ih.parseSelectStatement h₁)
    · intro left p toks e rest h
      obtain ⟨t, toks₁, right, rfl, ht, h, -⟩ := parseInfix_eq_ok.mp h
      exact ⟨t, toks₁, rfl, ht, ih.parse h⟩
    · intro toks e rest h
      obtain ⟨projection, kw, table, toks₁, h₁, hkw, hfilter⟩ := parseSelectStatement_eq_ok.mp h
      obtain ⟨first, toks₂, rfl, hfirst, hitems⟩ := populateProjectionList_reads h₁
      rcases hfilter with ⟨hwhere, selection, h, -⟩ | ⟨hwhere, rfl, -⟩
      · obtain ⟨w, toks₃, rfl, hw⟩ := atWhere_eq_true hwhere
        exact .filtered hfirst hitems hkw hw (by simp) (ih.parse h)
      · exact .all hfirst hitems hkw (by simp) hwhere

/-- What a goal is for the parser. -/
def Goal.Accepted : Goal → List Token → List Token → Prop
  | .expr p, toks, rest => ∃ e, Parses p toks e rest
  | .more p, toks, rest => ∀ left, ∃ e, Continues p left toks e rest
  | .operand, toks, rest => ∃ e, Begins toks e rest
  | .statement, toks, rest => ∃ e, Selects toks e rest
  | .query, toks, rest => ∃ e, Parses 0 toks e rest

theorem Reads.accepted {strict : Bool} {g : Goal} {toks rest : List Token}
    (h : Reads strict g toks rest) : g.Accepted toks rest := by
  induction h with
  | expr h₁ h₂ ih₁ ih₂ =>
    obtain ⟨e₁, ih₁⟩ := ih₁
    obtain ⟨e, ih₂⟩ := ih₂ e₁
    exact ⟨e, .intro ih₁ ih₂⟩
  | stop h => exact fun left => ⟨left, .stop h left⟩
  | step ht hp h₁ h₂ ih₁ ih₂ =>
    intro left
    obtain ⟨right, ih₁⟩ := ih₁
    obtain ⟨e, ih₂⟩ := ih₂ (.binary left _ right)
    exact ⟨e, .step ht hp ih₁ ih₂⟩
  | atom ht => exact ⟨_, .atom ht _⟩
  | paren hl h hr ih =>
    obtain ⟨e, ih⟩ := ih
    exact ⟨e, .paren hl ih⟩
  | unclosed hl h ih =>
    obtain ⟨e, ih⟩ := ih
    exact ⟨e, .paren hl ih⟩
  | nested ht h ih =>
    obtain ⟨e, ih⟩ := ih
    exact ⟨e, .keyword ht ih⟩
  | all hfirst hitems hkw htypes hwhere =>
    obtain ⟨items, hproj⟩ := hitems.populateProjectionList hfirst
    exact ⟨_, .all hproj hkw hwhere⟩
  | filtered hfirst hitems hkw hw htypes h ih =>
    obtain ⟨items, hproj⟩ := hitems.populateProjectionList hfirst
    obtain ⟨e, ih⟩ := ih
    exact ⟨_, .filtered hproj hkw (decide_eq_true hw) ih⟩
  | expression h ih => exact ih
  | select ht h hrest ih =>
    obtain ⟨e, ih⟩ := ih
    exact ⟨e, .intro (.keyword (by rw [ht]) ih) (.stop (Nat.le_of_eq hrest) e)⟩

/-! ## The strict readings -/

/-- What a goal is in the grammar. -/
def Goal.Derives : Goal → List Token → Prop
  | .expr _, body => Expression body
  | .more _, body => ∀ a, Expression a → Expression (a ++ body)
  | .operand, body => Expression body
  | .statement, body => Statement body
  | .query, body => Expression body ∨ ∃ t toks, t = ⟨.keyword, "SELECT".toList⟩ ∧ Statement toks ∧
      body = t :: toks

theorem ReadsItems.itemList {toks rest : List Token} (h : ReadsItems true toks rest) :
    ∃ items, toks = items ++ rest ∧ ItemList items := by
  induction h with
  | nil ht => exact ⟨[], rfl, .nil⟩
  | @cons c i toks rest hc hi h ih =>
    obtain ⟨items, rfl, hitems⟩ := ih
    exact ⟨c :: i :: items, rfl, .cons hc (hi rfl) hitems⟩

theorem Token.eq_keyword {t : Token} {w : CString} (htype : t.type = .keyword) (hlit : t.literal = w) :
    t = ⟨.keyword, w⟩ := by
  cases t
  simp_all

/-- What is read by the rules of the grammar is derived by them. -/
theorem Reads.derives {g : Goal} {toks rest : List Token} (h : Reads true g toks rest) :
    ∃ body, toks = body ++ rest ∧ g.Derives body := by
  generalize hstrict : true = strict at h
  induction h with
  | expr h₁ h₂ ih₁ ih₂ =>
    obtain ⟨a, rfl, ha⟩ := ih₁ hstrict
    obtain ⟨b, rfl, hb⟩ := ih₂ hstrict
    exact ⟨a ++ b, by simp, hb a ha⟩
  | stop h => exact ⟨[], rfl, fun a ha => by simpa using ha⟩
  | @step strict p t toks toks₁ rest ht hp h₁ h₂ ih₁ ih₂ =>
    obtain ⟨a, rfl, ha⟩ := ih₁ hstrict
    obtain ⟨b, rfl, hb⟩ := ih₂ hstrict
    refine ⟨t :: (a ++ b), by simp, fun l hl => ?_⟩
    have := hb _ (Expression.binary hl ht ha)
    simpa using this
  | @atom strict t toks ht => exact ⟨[t], rfl, .atom ht⟩
  | @paren strict l r toks rest hl h hr ih =>
    obtain ⟨a, rfl, ha⟩ := ih hstrict
    exact ⟨l :: (a ++ [r]), by simp, .paren hl ha hr⟩
  | unclosed => cases hstrict
  | nested => cases hstrict
  | @all strict first kw table toks rest hfirst hitems hkw htypes hwhere =>
    subst hstrict
    obtain ⟨items, rfl, hlist⟩ := hitems.itemList
    obtain ⟨hk, ht⟩ := htypes rfl
    exact ⟨first :: (items ++ kw :: table :: []), by simp,
      .mk hfirst hlist (Token.eq_keyword hk hkw) ht .none⟩
  | @filtered strict first kw table w toks toks₁ rest hfirst hitems hkw hw htypes h ih =>
    subst hstrict
    obtain ⟨items, rfl, hlist⟩ := hitems.itemList
    obtain ⟨hk, ht, hwk⟩ := htypes rfl
    obtain ⟨a, rfl, ha⟩ := ih rfl
    exact ⟨first :: (items ++ kw :: table :: w :: a), by simp,
      .mk hfirst hlist (Token.eq_keyword hk hkw) ht (.some (Token.eq_keyword hwk hw) ha)⟩
  | expression h ih =>
    obtain ⟨a, rfl, ha⟩ := ih hstrict
    exact ⟨a, rfl, .inl ha⟩
  | @select strict t toks rest ht h hrest ih =>
    obtain ⟨a, rfl, ha⟩ := ih hstrict
    exact ⟨t :: a, rfl, .inr ⟨t, a, ht, ha, rfl⟩⟩

/-- An operand is read off the front of any tokens. -/
def IsOperand (o : List Token) : Prop := ∀ rest, Reads true .operand (o ++ rest) rest

/-- Operators, each with its right operand. -/
def IsChain (c : List (Token × List Token)) : Prop := ∀ x ∈ c, x.1.type.isInfix = true ∧ IsOperand x.2

def chainTokens (c : List (Token × List Token)) : List Token := c.flatMap fun x => x.1 :: x.2

theorem TokenType.precedence_pos {type : TokenType} (h : type.isInfix = true) : 0 < type.precedence := by
  cases type <;> first | decide | cases h

/-- The loop reads a part of a chain, up to an operator that does not bind tighter than `p`. -/
theorem IsChain.reads_more (n : Nat) {c : List (Token × List Token)} (hc : IsChain c) (hn : c.length ≤ n)
    {rest : List Token} (hrest : nextPrecedence rest = 0) (p : Nat) :
    ∃ c', c' <:+ c ∧ nextPrecedence (chainTokens c' ++ rest) ≤ p ∧
      Reads true (.more p) (chainTokens c ++ rest) (chainTokens c' ++ rest) := by
  induction n generalizing c p with
  | zero =>
    obtain rfl : c = [] := List.length_eq_zero_iff.mp (by omega)
    have hle : nextPrecedence (chainTokens [] ++ rest) ≤ p := by
      show nextPrecedence rest ≤ p
      omega
    exact ⟨[], List.suffix_refl _, hle, .stop hle⟩
  | succ n ih =>
    by_cases hle : nextPrecedence (chainTokens c ++ rest) ≤ p
    · exact ⟨c, List.suffix_refl _, hle, .stop hle⟩
    cases c with
    | nil =>
      refine absurd ?_ hle
      show nextPrecedence rest ≤ p
      omega
    | cons x c =>
      obtain ⟨t, o⟩ := x
      obtain ⟨ht, ho⟩ := hc (t, o) (List.mem_cons_self ..)
      have hlen : c.length ≤ n := by simpa using hn
      -- the right operand takes the operators that bind tighter
      obtain ⟨c₁, hsuf₁, -, hreads₁⟩ := ih (c := c) (fun y hy => hc y (List.mem_cons_of_mem _ hy)) hlen
        t.type.precedence
      obtain ⟨c₂, hsuf₂, hle₂, hreads₂⟩ := ih (c := c₁)
        (fun y hy => hc y (List.mem_cons_of_mem _ (hsuf₁.mem hy)))
        (Nat.le_trans hsuf₁.length_le hlen) p
      refine ⟨c₂, (hsuf₂.trans hsuf₁).trans (List.suffix_cons _ _), hle₂, ?_⟩
      have hexpr : Reads true (.expr t.type.precedence) (o ++ (chainTokens c ++ rest))
          (chainTokens c₁ ++ rest) := .expr (ho _) hreads₁
      have := Reads.step ht (Nat.lt_of_not_le hle) hexpr hreads₂
      simpa [chainTokens] using this

/-- An operand with a chain behind it is read as an expression. -/
theorem IsChain.reads_expr {o : List Token} {c : List (Token × List Token)} (ho : IsOperand o)
    (hc : IsChain c) {rest : List Token} (hrest : nextPrecedence rest = 0) :
    Reads true (.expr 0) (o ++ chainTokens c ++ rest) rest := by
  obtain ⟨c', hsuf, hle, hreads⟩ := hc.reads_more c.length (Nat.le_refl _) hrest 0
  cases c' with
  | nil =>
    rw [List.append_assoc]
    exact .expr (ho _) hreads
  | cons x c' =>
    have hpos := TokenType.precedence_pos (hc x (hsuf.mem (List.mem_cons_self ..))).1
    have : nextPrecedence (chainTokens (x :: c') ++ rest) = x.1.type.precedence := rfl
    omega

/-- An expression is an operand with a chain behind it. -/
theorem Expression.chain {a : List Token} (h : Expression a) :
    ∃ o c, a = o ++ chainTokens c ∧ IsOperand o ∧ IsChain c := by
  induction h with
  | @atom t ht => exact ⟨[t], [], by simp [chainTokens], fun rest => .atom ht, by simp [IsChain]⟩
  | @binary t a b ha ht hb iha ihb =>
    obtain ⟨o₁, c₁, rfl, ho₁, hc₁⟩ := iha
    obtain ⟨o₂, c₂, rfl, ho₂, hc₂⟩ := ihb
    refine ⟨o₁, c₁ ++ (t, o₂) :: c₂, by simp [chainTokens], ho₁, fun x hx => ?_⟩
    rcases List.mem_append.mp hx with hx | hx
    · exact hc₁ x hx
    · rcases List.mem_cons.mp hx with rfl | hx
      · exact ⟨ht, ho₂⟩
      · exact hc₂ x hx
  | @paren l r a hl ha hr ih =>
    obtain ⟨o, c, rfl, ho, hc⟩ := ih
    refine ⟨l :: (o ++ chainTokens c ++ [r]), [], by simp [chainTokens], fun rest => ?_, by simp [IsChain]⟩
    have hnext : nextPrecedence (r :: rest) = 0 := by simp [nextPrecedence, hr, TokenType.precedence]
    have := Reads.paren hl (hc.reads_expr ho hnext) hr
    simpa using this

theorem Expression.reads {a rest : List Token} (h : Expression a) (hrest : nextPrecedence rest = 0) :
    Reads true (.expr 0) (a ++ rest) rest := by
  obtain ⟨o, c, rfl, ho, hc⟩ := h.chain
  exact hc.reads_expr ho hrest

theorem ItemList.reads {items : List Token} (h : ItemList items) {t : Token} {toks : List Token}
    (ht : t.type ≠ .comma) : ReadsItems true (items ++ t :: toks) (t :: toks) := by
  induction h with
  | nil => exact .nil ht
  | cons hc hi h ih => exact .cons hc (fun _ => hi) ih

theorem Ended.nextPrecedence {rest : List Token} (h : Ended rest) : nextPrecedence rest = 0 := by
  rcases h with rfl | rfl <;> rfl

theorem Ended.atWhere {rest : List Token} (h : Ended rest) : atWhere rest = false := by
  rcases h with rfl | rfl <;> rfl

theorem Statement.reads {toks rest : List Token} (h : Statement toks) (hrest : Ended rest) :
    Reads true .statement (toks ++ rest) rest := by
  obtain ⟨hfirst, hitems, rfl, htable, hfilter⟩ := h
  rw [List.cons_append, List.append_assoc]
  cases hfilter with
  | none =>
    exact .all hfirst (hitems.reads (by decide)) rfl (fun _ => ⟨rfl, htable⟩) hrest.atWhere
  | some hw h =>
    subst hw
    exact .filtered hfirst (hitems.reads (by decide)) rfl rfl (fun _ => ⟨rfl, htable, rfl⟩)
      (h.reads hrest.nextPrecedence)

/-- A sentence is read by the rules of the grammar, up to its end. -/
theorem Sentence.reads {toks : List Token} (h : Sentence toks) :
    ∃ rest, Reads true .query toks rest ∧ Ended rest := by
  cases h with
  | expression h hsemi => exact ⟨_, .expression (h.reads hsemi.nextPrecedence), hsemi⟩
  | statement ht h hsemi => exact ⟨_, .select ht (h.reads hsemi) hsemi.nextPrecedence, hsemi⟩

theorem Reads.sentence {toks rest : List Token} (h : Reads true .query toks rest) (hrest : Ended rest) :
    Sentence toks := by
  obtain ⟨body, rfl, hbody | ⟨t, toks, ht, hstatement, rfl⟩⟩ := h.derives
  · exact .expression hbody hrest
  · exact .statement ht hstatement hrest

theorem Parses.unique {toks rest rest' : List Token} {e e' : SqlExpr} (h : Parses 0 toks e rest)
    (h' : Parses 0 toks e' rest') : rest = rest' := by
  obtain ⟨n, h⟩ := h
  obtain ⟨n', h'⟩ := h'
  have h₁ := parse_le (Nat.le_max_left n n') h
  have h₂ := parse_le (Nat.le_max_right n n') h'
  rw [h₁] at h₂
  exact (Prod.mk.inj h₂).2

/-- **The parser and the grammar.** `parse` returns on sentences only, and reads them to their end, exactly
if what it reads needs none of the lax rules and leaves nothing but a semicolon. -/
theorem parse_sentence_iff (toks : List Token) :
    (∀ e rest, Parses 0 toks e rest → Sentence toks ∧ Ended rest) ↔
      ∀ rest, Reads false .query toks rest → Reads true .query toks rest ∧ Ended rest := by
  constructor
  · intro h rest hreads
    obtain ⟨e, hparses⟩ := hreads.accepted
    obtain ⟨hsentence, hrest⟩ := h e rest hparses
    obtain ⟨rest', hstrict, -⟩ := hsentence.reads
    obtain ⟨e', hparses'⟩ := hstrict.accepted
    obtain rfl := Parses.unique hparses hparses'
    exact ⟨hstrict, hrest⟩
  · rintro h e rest ⟨n, hparse⟩
    obtain ⟨hstrict, hrest⟩ := h rest (.expression ((parser_sound n).parse hparse))
    exact ⟨hstrict.sentence hrest, hrest⟩

/-- An expression has an odd number of tokens. -/
theorem Expression.length_odd {a : List Token} (h : Expression a) : a.length % 2 = 1 := by
  induction h with
  | atom => rfl
  | binary ha ht hb iha ihb =>
    rw [List.length_append, List.length_cons]
    omega
  | paren hl ha hr ih =>
    rw [List.length_cons, List.length_append, List.length_singleton]
    omega

/-- Of `1 2`, the second number is left. -/
theorem parse_sentence_fails :
    Parses 0 [⟨.int, ['1']⟩, ⟨.int, ['2']⟩] (.identifier ['1']) [⟨.int, ['2']⟩] ∧
      ¬ Sentence [⟨.int, ['1']⟩, ⟨.int, ['2']⟩] := by
  refine ⟨.intro (.atom (.inr rfl) _) (.stop (Nat.le_refl 0) _), fun h => ?_⟩
  generalize htoks : [(⟨.int, ['1']⟩ : Token), ⟨.int, ['2']⟩] = toks at h
  cases h with
  | expression h hsemi =>
    rcases hsemi with rfl | rfl
    · have := h.length_odd
      rw [List.append_nil] at htoks
      rw [← htoks] at this
      cases this
    · have := congrArg List.getLast? htoks
      rw [List.getLast?_append] at this
      cases this
  | statement ht h hsemi =>
    subst ht
    cases htoks

end SomeDB
