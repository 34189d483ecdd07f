import SomeDB.Utils.CString
import SomeDB.Utils.Shared

/-!
# The lexer (`lexer.cpp`)

A lexer reads its input through a 16-bit position. On an input of 2¹⁶ or more characters the position starts
again from 0 and the lexer never sees the end, so the loops have fuel; a loop without fuel left diverges.

`Spaced ts text`: the text has the tokens `ts`, with whitespace between them. The lexer cuts such a text back
into its tokens (`populateTokens_spaced`).
-/

namespace SomeDB

open Lib

/-- `TokenType`; `eof` is `END`. -/
inductive TokenType where
  | illegal | keyword | identifier | int | string | equals | plus | minus | comma | semicolon | asterisk
  | slash | lparen | rparen | lbrace | rbrace | lt | gt | ltEq | gtEq | eof
  deriving DecidableEq, Repr

/-- `Token`. -/
structure Token where
  type : TokenType
  literal : CString
  deriving DecidableEq, Repr

/-- `Token::keywords`. -/
def Token.keywords : List CString :=
  ["SELECT".toList, "UPDATE".toList, "DELETE".toList, "INSERT".toList, "WHERE".toList, "FROM".toList,
    "AS".toList, "OR".toList]

/-- `Token::getStringType`. -/
def Token.getStringType (str : CString) : TokenType := if str ∈ Token.keywords then .keyword else .identifier

/-- `Lexer` without `position`, which nothing reads. -/
structure Lexer where
  input : List Char
  aheadPosition : UInt16
  currCh : Char

abbrev LexM (α : Type) := Prog Fault Lexer α

/-- `isLetter` of the current character. -/
def isLetter (c : Char) : Bool := c.isAlpha || c = '_'

/-- `isDigit` of the current character. -/
def isDigit (c : Char) : Bool := c.isDigit

/-- The characters that `eatWhitespace` skips. -/
def isBlank (c : Char) : Bool := c = ' ' || c = '\n' || c = '\t' || c = '\r'

/-- What follows does not make the token longer. -/
def Token.EndsBefore (t : Token) (s : List Char) : Prop :=
  match t.type with
  | .keyword | .identifier => isLetter (s.headD '\x00') = false
  | .int => isDigit (s.headD '\x00') = false
  | .lt | .gt => s.headD '\x00' ≠ '='
  | _ => True

theorem Token.getStringType_cases (w : CString) :
    Token.getStringType w = .keyword ∨ Token.getStringType w = .identifier := by
  unfold Token.getStringType
  split
  · exact .inl rfl
  · exact .inr rfl

theorem Token.endsBefore_word (w : CString) (s : List Char) :
    (⟨Token.getStringType w, w⟩ : Token).EndsBefore s ↔ isLetter (s.headD '\x00') = false := by
  unfold Token.EndsBefore
  rcases Token.getStringType_cases w with h | h <;> simp only [h]

namespace Lexer

/-- `peekNext`. -/
def peekNext (lx : Lexer) : Char := lx.input.getD lx.aheadPosition.toNat '\x00'

/-- `readChar`. -/
def readChar : LexM Unit := Prog.modify fun lx =>
  { lx with currCh := lx.peekNext, aheadPosition := lx.aheadPosition + 1 }

/-- `Lexer(input)`. -/
def new (input : List Char) : Lexer := (readChar ⟨input, 0, '\x00'⟩).2

/-- Read characters as long as they satisfy `p`. -/
def readWhile (p : Char → Bool) : Nat → LexM CString
  | 0 => Prog.fault .diverges
  | fuel + 1 => do
    let c := (← Prog.get).currCh
    if p c then do
      readChar
      let str ← readWhile p fuel
      pure (c :: str)
    else pure []

/-- The tokens of one character. -/
def symbol : Char → Option TokenType
  | '=' => some .equals
  | '+' => some .plus
  | '-' => some .minus
  | ',' => some .comma
  | ';' => some .semicolon
  | '*' => some .asterisk
  | '/' => some .slash
  | '(' => some .lparen
  | ')' => some .rparen
  | '{' => some .lbrace
  | '}' => some .rbrace
  | _ => none

/-- A token that ends with the current character. -/
def finish (token : Token) : LexM Token := do
  readChar
  pure token

/-- `nextToken`; `token` is the out parameter, an illegal character keeps its literal. -/
def nextToken (fuel : Nat) (token : Token) : LexM Token := do
  let _ ← readWhile isBlank fuel
  let lx ← Prog.get
  let c := lx.currCh
  match symbol c with
  | some type => finish ⟨type, [c]⟩
  | none =>
    if c = '>' then
      if lx.peekNext = '=' then do
        readChar
        finish ⟨.gtEq, ['>', '=']⟩
      else finish ⟨.gt, [c]⟩
    else if c = '<' then
      if lx.peekNext = '=' then do
        readChar
        finish ⟨.ltEq, ['<', '=']⟩
      else finish ⟨.lt, [c]⟩
    else if c = '\x00' then finish ⟨.eof, []⟩
    else if isLetter c then do
      let str ← readWhile isLetter fuel
      pure ⟨Token.getStringType str, str⟩
    else if isDigit c then do
      let num ← readWhile isDigit fuel
      pure ⟨.int, num⟩
    else finish { token with type := .illegal }

/-- `populateTokens`: the tokens up to the end, each read into the same `tok`. -/
def populateTokens : Nat → Token → LexM (List Token)
  | 0, _ => Prog.fault .diverges
  | fuel + 1, tok => do
    let tok ← nextToken fuel tok
    if tok.type = .eof then pure []
    else do
      let toks ← populateTokens fuel tok
      pure (tok :: toks)

/-! ## The rest of the input -/

/-- The lexer that has read `pre` and is at the first character of `s`. -/
def after (pre s : List Char) : Lexer := ⟨pre ++ s, UInt16.ofNat (pre.length + 1), s.headD '\x00'⟩

theorem new_eq (input : List Char) : new input = after [] input := by
  simp only [new, readChar, Prog.modify, peekNext, after]
  cases input <;> rfl

theorem peekNext_after (pre : List Char) (c : Char) (s : List Char) (h : pre.length < 65535) :
    (after pre (c :: s)).peekNext = s.headD '\x00' := by
  simp only [peekNext, after, UInt16.toNat_ofNat', Nat.mod_eq_of_lt (show pre.length + 1 < 2 ^ 16 by omega)]
  rw [List.getD_eq_getElem?_getD, List.getElem?_append_right (by omega),
    show pre.length + 1 - pre.length = 1 by omega]
  cases s <;> rfl

theorem readChar_after (pre : List Char) (c : Char) (s : List Char) (h : pre.length < 65535) :
    readChar (after pre (c :: s)) = (.ok (), after (pre ++ [c]) s) := by
  have hpeek := peekNext_after pre c s h
  simp only [readChar, Prog.modify, hpeek]
  simp only [after, List.append_assoc, List.singleton_append, List.length_append, List.length_singleton,
    UInt16.ofNat_add]
  rfl

/-- The characters of `w` are read, up to one that does not satisfy `p`. -/
theorem readWhile_after {p : Char → Bool} (w pre s : List Char) (hw : ∀ c ∈ w, p c = true)
    (hs : p (s.headD '\x00') = false) (hlen : (pre ++ w).length < 65536) {fuel : Nat}
    (hfuel : w.length < fuel) :
    readWhile p fuel (after pre (w ++ s)) = (.ok w, after (pre ++ w) s) := by
  induction w generalizing pre fuel with
  | nil =>
    obtain ⟨fuel, rfl⟩ := Nat.exists_eq_succ_of_ne_zero (Nat.ne_of_gt hfuel)
    have hstop : ¬ p (after pre s).currCh = true := by rw [after, hs]; simp
    rw [List.nil_append, List.append_nil, readWhile, Prog.get_bind, if_neg hstop]
    rfl
  | cons c w ih =>
    obtain ⟨fuel, rfl⟩ := Nat.exists_eq_succ_of_ne_zero (Nat.ne_of_gt (Nat.zero_lt_of_lt hfuel))
    rw [List.length_append, List.length_cons] at hlen
    have hcurr : (after pre (c :: w ++ s)).currCh = c := rfl
    have ih' := ih (pre ++ [c]) (fun c' hc' => hw c' (List.mem_cons_of_mem _ hc'))
      (by simp only [List.length_append, List.length_singleton]; omega)
      (Nat.lt_of_succ_lt_succ hfuel)
    rw [readWhile, Prog.get_bind]
    simp only [hcurr, hw c (List.mem_cons_self ..), if_true]
    rw [List.cons_append, Prog.bind_ok (readChar_after _ _ _ (by omega)), Prog.bind_ok ih',
      List.append_assoc, List.singleton_append]
    rfl

/-! ## Lexemes -/

/-- The tokens that the lexer can return, but for the end and illegal characters. -/
inductive Lexeme : Token → Prop
  | symbol {c : Char} {type : TokenType} (h : symbol c = some type) : Lexeme ⟨type, [c]⟩
  | gt : Lexeme ⟨.gt, ['>']⟩
  | lt : Lexeme ⟨.lt, ['<']⟩
  | gtEq : Lexeme ⟨.gtEq, ['>', '=']⟩
  | ltEq : Lexeme ⟨.ltEq, ['<', '=']⟩
  | word {w : CString} (hne : w ≠ []) (hw : ∀ c ∈ w, isLetter c = true) :
      Lexeme ⟨Token.getStringType w, w⟩
  | int {w : CString} (hne : w ≠ []) (hw : ∀ c ∈ w, isDigit c = true) : Lexeme ⟨.int, w⟩

/-- The text of the tokens, with whitespace between them. -/
inductive Spaced : List Token → List Char → Prop
  | single (t : Token) : Spaced [t] t.literal
  | cons {ts : List Token} {ws text : List Char} (t : Token) (hne : ws ≠ [])
      (hws : ∀ c ∈ ws, isBlank c = true) (h : Spaced ts text) : Spaced (t :: ts) (t.literal ++ (ws ++ text))

theorem mem_of_symbol {c : Char} {type : TokenType} (h : symbol c = some type) :
    c ∈ ['=', '+', '-', ',', ';', '*', '/', '(', ')', '{', '}'] := by
  unfold symbol at h
  split at h <;> simp_all

theorem symbol_type {c : Char} {type : TokenType} (h : symbol c = some type) :
    type ≠ .eof ∧ type ≠ .illegal ∧ ∀ s, (⟨type, [c]⟩ : Token).EndsBefore s := by
  have hc := mem_of_symbol h
  simp only [List.mem_cons, List.not_mem_nil, or_false] at hc
  rcases hc with rfl | rfl | rfl | rfl | rfl | rfl | rfl | rfl | rfl | rfl | rfl <;>
    (cases h; exact ⟨by decide, by decide, fun s => trivial⟩)

theorem symbol_eq_none {p : Char → Bool} {c : Char} (h : p c = true)
    (hp : ['=', '+', '-', ',', ';', '*', '/', '(', ')', '{', '}'].all (fun c => !p c) = true) :
    symbol c = none := by
  cases hs : symbol c with
  | none => rfl
  | some type =>
    have := List.all_eq_true.mp hp c (mem_of_symbol hs)
    rw [h] at this
    cases this

theorem not_isLetter_of_isDigit {c : Char} (h : isDigit c = true) : ¬ isLetter c = true := by
  intro hl
  have h9 : c.val.toNat ≤ 57 := UInt32.le_iff_toNat_le.mp (of_decide_eq_true (Bool.and_eq_true_iff.mp h).2)
  rcases Bool.or_eq_true_iff.mp hl with halpha | hunderscore
  · rcases Bool.or_eq_true_iff.mp halpha with hupper | hlower
    · have h65 := UInt32.le_iff_toNat_le.mp (of_decide_eq_true hupper).1
      exact absurd (Nat.le_trans h65 h9) (by decide)
    · have h97 := UInt32.le_iff_toNat_le.mp (of_decide_eq_true (Bool.and_eq_true_iff.mp hlower).1)
      exact absurd (Nat.le_trans h97 h9) (by decide)
  · cases of_decide_eq_true hunderscore
    exact absurd h9 (by decide)

theorem isBlank_cases {c : Char} (h : isBlank c = true) : c = ' ' ∨ c = '\n' ∨ c = '\t' ∨ c = '\r' := by
  simpa [isBlank, or_assoc] using h

/-- A lexeme begins with a character that is not blank. -/
theorem Lexeme.head {t : Token} (h : Lexeme t) : ∃ c w, t.literal = c :: w ∧ isBlank c = false := by
  have hblank : ∀ {c : Char}, (isBlank c = true → False) → isBlank c = false :=
    fun h => Bool.eq_false_iff.mpr h
  cases h with
  | @symbol c type h =>
    refine ⟨c, [], rfl, hblank fun hb => ?_⟩
    obtain rfl | rfl | rfl | rfl := isBlank_cases hb <;> cases h
  | gt => exact ⟨_, _, rfl, rfl⟩
  | lt => exact ⟨_, _, rfl, rfl⟩
  | gtEq => exact ⟨_, _, rfl, rfl⟩
  | ltEq => exact ⟨_, _, rfl, rfl⟩
  | @word w hne hw =>
    obtain ⟨c, w, rfl⟩ := List.exists_cons_of_ne_nil hne
    refine ⟨c, w, rfl, hblank fun hb => ?_⟩
    have hc := hw c (List.mem_cons_self ..)
    obtain rfl | rfl | rfl | rfl := isBlank_cases hb <;> cases hc
  | @int w hne hw =>
    obtain ⟨c, w, rfl⟩ := List.exists_cons_of_ne_nil hne
    refine ⟨c, w, rfl, hblank fun hb => ?_⟩
    have hc := hw c (List.mem_cons_self ..)
    obtain rfl | rfl | rfl | rfl := isBlank_cases hb <;> cases hc

/-- What stands behind a token in a text: a blank, or the end. -/
def Ends (s : List Char) : Prop := s = [] ∨ ∃ c s', s = c :: s' ∧ isBlank c = true

theorem Ends.head_not {s : List Char} (h : Ends s) {p : Char → Bool} (h0 : p '\x00' = false)
    (hp : ∀ c, isBlank c = true → p c = false) : p (s.headD '\x00') = false := by
  rcases h with rfl | ⟨c, s', rfl, hc⟩
  · exact h0
  · exact hp c hc

theorem finish_after (t : Token) (pre : List Char) (c : Char) (s : List Char) (h : pre.length < 65535) :
    finish t (after pre (c :: s)) = (.ok t, after (pre ++ [c]) s) := by
  rw [finish, Prog.bind_ok (readChar_after pre c s h)]
  rfl

/-- The current character decides once the blanks are skipped. -/
theorem nextToken_blanks {ws pre s : List Char} (hws : ∀ c ∈ ws, isBlank c = true)
    (hs : isBlank (s.headD '\x00') = false) (hlen : (pre ++ ws).length < 65536) {fuel : Nat}
    (hfuel : ws.length < fuel) (tok : Token) :
    nextToken fuel tok (after pre (ws ++ s)) = nextToken fuel tok (after (pre ++ ws) s) := by
  have h₁ := readWhile_after ws pre s hws hs hlen hfuel
  have h₂ := readWhile_after [] (pre ++ ws) s (by simp) hs (by simpa using hlen)
    (Nat.zero_lt_of_lt hfuel)
  rw [List.append_nil, List.nil_append] at h₂
  rw [nextToken, Prog.bind_ok h₁, Prog.bind_ok h₂]

theorem Ends.endsBefore {s : List Char} (h : Ends s) (t : Token) : t.EndsBefore s := by
  have hblank : ∀ p : Char → Bool, p ' ' = false → p '\n' = false → p '\t' = false → p '\r' = false →
      ∀ c, isBlank c = true → p c = false := by
    intro p h₁ h₂ h₃ h₄ c hc
    obtain rfl | rfl | rfl | rfl := isBlank_cases hc
    · exact h₁
    · exact h₂
    · exact h₃
    · exact h₄
  have hne := h.head_not (p := fun c => c = '=') rfl (hblank _ rfl rfl rfl rfl)
  unfold Token.EndsBefore
  split
  · exact h.head_not rfl (hblank _ rfl rfl rfl rfl)
  · exact h.head_not rfl (hblank _ rfl rfl rfl rfl)
  · exact h.head_not rfl (hblank _ rfl rfl rfl rfl)
  · simpa using hne
  · simpa using hne
  · trivial

/-- A lexeme that ends before what follows is read. -/
theorem nextToken_lexeme {t : Token} (ht : Lexeme t) {pre s : List Char} (hs : t.EndsBefore s)
    (hlen : (pre ++ t.literal).length < 65536) {fuel : Nat} (hfuel : t.literal.length < fuel)
    (tok : Token) :
    nextToken fuel tok (after pre (t.literal ++ s)) = (.ok t, after (pre ++ t.literal) s) := by
  obtain ⟨c₀, w₀, hhead, hblank⟩ := ht.head
  have hskip := readWhile_after [] pre (t.literal ++ s) (p := isBlank) (by simp)
    (by rw [hhead]; exact hblank) (by rw [List.length_append] at hlen; simp only [List.append_nil]; omega)
    (Nat.zero_lt_of_lt hfuel)
  rw [List.append_nil, List.nil_append] at hskip
  rw [nextToken, Prog.bind_ok hskip, Prog.get_bind]
  rw [List.length_append] at hlen
  cases ht with
  | @symbol c type h =>
    simp only [show (after pre ([c] ++ s)).currCh = c from rfl, h]
    exact finish_after _ pre c s (by simp at hlen; omega)
  | gt =>
    simp only [show (after pre (['>'] ++ s)).currCh = '>' from rfl, show symbol '>' = none from rfl, if_true]
    rw [if_neg (by rw [List.singleton_append, peekNext_after _ _ _ (by simp at hlen; omega)]; exact hs)]
    exact finish_after _ pre '>' s (by simp at hlen; omega)
  | lt =>
    simp only [show (after pre (['<'] ++ s)).currCh = '<' from rfl, show symbol '<' = none from rfl, if_true]
    rw [if_neg (by decide),
      if_neg (by rw [List.singleton_append, peekNext_after _ _ _ (by simp at hlen; omega)]; exact hs)]
    exact finish_after _ pre '<' s (by simp at hlen; omega)
  | gtEq =>
    simp only [show (after pre (['>', '='] ++ s)).currCh = '>' from rfl, show symbol '>' = none from rfl,
      if_true]
    simp only [List.length_cons, List.length_nil] at hlen
    rw [if_pos (by rw [List.cons_append, peekNext_after _ _ _ (by omega)]; rfl), List.cons_append,
      Prog.bind_ok (readChar_after pre '>' _ (by omega)), List.singleton_append,
      finish_after _ _ '=' s (by simp only [List.length_append, List.length_singleton]; omega)]
    simp
  | ltEq =>
    simp only [show (after pre (['<', '='] ++ s)).currCh = '<' from rfl, show symbol '<' = none from rfl,
      if_true]
    simp only [List.length_cons, List.length_nil] at hlen
    rw [if_neg (by decide), if_pos (by rw [List.cons_append, peekNext_after _ _ _ (by omega)]; rfl),
      List.cons_append, Prog.bind_ok (readChar_after pre '<' _ (by omega)), List.singleton_append,
      finish_after _ _ '=' s (by simp only [List.length_append, List.length_singleton]; omega)]
    simp
  | @word w hwne hw =>
    obtain ⟨c, w, rfl⟩ := List.exists_cons_of_ne_nil hwne
    have hc := hw c (List.mem_cons_self ..)
    have hread := readWhile_after (c :: w) pre s hw
      ((Token.endsBefore_word _ s).mp hs)
      (by rw [List.length_append]; exact hlen) hfuel
    simp only [show (after pre (c :: w ++ s)).currCh = c from rfl,
      symbol_eq_none hc (by decide)]
    rw [if_neg (by rintro rfl; cases hc), if_neg (by rintro rfl; cases hc),
      if_neg (by rintro rfl; cases hc), if_pos hc, Prog.bind_ok hread]
    rfl
  | @int w hwne hw =>
    obtain ⟨c, w, rfl⟩ := List.exists_cons_of_ne_nil hwne
    have hc := hw c (List.mem_cons_self ..)
    have hread := readWhile_after (c :: w) pre s hw
      hs
      (by rw [List.length_append]; exact hlen) hfuel
    have hletter := not_isLetter_of_isDigit hc
    simp only [show (after pre (c :: w ++ s)).currCh = c from rfl,
      symbol_eq_none hc (by decide)]
    rw [if_neg (by rintro rfl; cases hc), if_neg (by rintro rfl; cases hc),
      if_neg (by rintro rfl; cases hc), if_neg hletter, if_pos hc, Prog.bind_ok hread]
    rfl

/-- The same behind blanks. -/
theorem nextToken_spaced {t : Token} (ht : Lexeme t) {ws pre s : List Char}
    (hws : ∀ c ∈ ws, isBlank c = true) (hs : Ends s) (hlen : (pre ++ (ws ++ t.literal)).length < 65536)
    {fuel : Nat} (hfuel : (ws ++ t.literal).length < fuel) (tok : Token) :
    nextToken fuel tok (after pre (ws ++ (t.literal ++ s))) =
      (.ok t, after (pre ++ (ws ++ t.literal)) s) := by
  obtain ⟨c, w, hlit, hc⟩ := ht.head
  rw [List.length_append] at hfuel
  have hlen' : (pre ++ ws).length < 65536 := by
    simp only [List.length_append] at hlen ⊢
    omega
  rw [nextToken_blanks hws (by rw [hlit]; exact hc) hlen' (by omega),
    nextToken_lexeme ht (hs.endsBefore t) (by rwa [List.append_assoc]) (by omega), List.append_assoc]

theorem Lexeme.type_ne_eof {t : Token} (h : Lexeme t) : t.type ≠ .eof := by
  cases h with
  | symbol h => exact (symbol_type h).1
  | @word w =>
    rcases Token.getStringType_cases w with h | h <;> simp [h]
  | gt | lt | gtEq | ltEq | int => simp

/-- The input is at its end, or at a NUL. -/
def Closed (tail : List Char) : Prop := tail.headD '\x00' = '\x00'

theorem nextToken_closed {tail : List Char} (htail : Closed tail) (pre : List Char)
    (hlen : pre.length < 65536) {fuel : Nat} (hfuel : 0 < fuel) (tok : Token) :
    ∃ lx, nextToken fuel tok (after pre tail) = (.ok ⟨.eof, []⟩, lx) := by
  have hcurr : (after pre tail).currCh = '\x00' := htail
  have hskip := readWhile_after [] pre tail (p := isBlank) (by simp) (by rw [htail]; rfl)
    (by simpa using hlen) hfuel
  rw [List.append_nil, List.nil_append] at hskip
  rw [nextToken, Prog.bind_ok hskip, Prog.get_bind, hcurr]
  exact ⟨_, rfl⟩

theorem populateTokens_end (pre : List Char) (hlen : pre.length < 65536) {fuel : Nat} (hfuel : 1 < fuel)
    (tok : Token) : ∃ lx, populateTokens fuel tok (after pre []) = (.ok [], lx) := by
  obtain ⟨fuel, rfl⟩ : ∃ n, fuel = n + 1 := ⟨fuel - 1, by omega⟩
  obtain ⟨lx, hend⟩ := nextToken_closed (show Closed [] from rfl) pre hlen (show 0 < fuel by omega) tok
  rw [populateTokens, Prog.bind_ok hend]
  exact ⟨lx, rfl⟩

/-- The next token and the ones behind it. -/
theorem populateTokens_cons {fuel : Nat} {tok t : Token} {ts : List Token} {lx lx₁ lx₂ : Lexer}
    (ht : t.type ≠ .eof) (hnext : nextToken fuel tok lx = (.ok t, lx₁))
    (hrest : populateTokens fuel t lx₁ = (.ok ts, lx₂)) :
    populateTokens (fuel + 1) tok lx = (.ok (t :: ts), lx₂) := by
  rw [populateTokens, Prog.bind_ok hnext, if_neg ht, Prog.bind_ok hrest]
  rfl

/-- A text is cut back into its tokens. -/
theorem populateTokens_spaced {ts : List Token} {text : List Char} (h : Spaced ts text)
    (hts : ∀ t ∈ ts, Lexeme t) {ws pre : List Char} (hws : ∀ c ∈ ws, isBlank c = true)
    (hlen : (pre ++ (ws ++ text)).length < 65536) {fuel : Nat} (hfuel : (ws ++ text).length + 1 < fuel)
    (tok : Token) : ∃ lx, populateTokens fuel tok (after pre (ws ++ text)) = (.ok ts, lx) := by
  -- by induction on the tokens; the blanks in front of a token are read with it
  induction h generalizing ws pre fuel tok with
  | single t =>
    have ht := hts t (List.mem_cons_self ..)
    obtain ⟨fuel, rfl⟩ : ∃ n, fuel = n + 1 := ⟨fuel - 1, by omega⟩
    have hread := nextToken_spaced ht (s := []) hws (.inl rfl) hlen (show _ < fuel by omega) tok
    rw [List.append_nil] at hread
    have hpos : 0 < t.literal.length := by
      obtain ⟨c, w, hlit, -⟩ := ht.head
      rw [hlit]
      simp
    obtain ⟨lx, hend⟩ := populateTokens_end _ hlen
      (show 1 < fuel by rw [List.length_append] at hfuel; omega) t
    exact ⟨lx, populateTokens_cons ht.type_ne_eof hread hend⟩
  | @cons ts ws' text t hne hws' h ih =>
    have ht := hts t (List.mem_cons_self ..)
    obtain ⟨fuel, rfl⟩ : ∃ n, fuel = n + 1 := ⟨fuel - 1, by omega⟩
    have hpos : 0 < t.literal.length := by
      obtain ⟨c, w, hlit, -⟩ := ht.head
      rw [hlit]
      simp
    have hends : Ends (ws' ++ text) := by
      obtain ⟨c, w, rfl⟩ := List.exists_cons_of_ne_nil hne
      exact .inr ⟨c, w ++ text, rfl, hws' c (List.mem_cons_self ..)⟩
    simp only [List.length_append] at hlen hfuel
    have hread := nextToken_spaced ht hws hends
      (show (pre ++ (ws ++ t.literal)).length < 65536 by simp only [List.length_append]; omega)
      (show (ws ++ t.literal).length < fuel by simp only [List.length_append]; omega) tok
    obtain ⟨lx, hrest⟩ := ih (fun t' ht' => hts t' (List.mem_cons_of_mem _ ht')) hws'
      (show (pre ++ (ws ++ t.literal) ++ (ws' ++ text)).length < 65536 by
        simp only [List.length_append]; omega)
      (show (ws' ++ text).length + 1 < fuel by simp only [List.length_append]; omega) t
    exact ⟨lx, populateTokens_cons ht.type_ne_eof hread hrest⟩

end Lexer

end SomeDB
