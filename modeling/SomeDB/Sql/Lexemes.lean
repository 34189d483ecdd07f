import SomeDB.Sql.Lexer

/-!
# The pieces of a text

`Cut toks text`: the text is blanks and pieces, one piece for each of the tokens, in order. The piece of a
lexeme is its literal, and what follows does not make it longer; any other character is a piece of its own,
with a token that is `ILLEGAL`. A text without NULs is cut into its pieces (`populateTokens_cuts`).

The lemmas have the text up to a NUL or to the end of the input (`Closed`): for the lexer these are the same.
-/

namespace SomeDB

open Lib

namespace Lexer

/-- A character that begins no lexeme. -/
def IsOther (c : Char) : Prop :=
  symbol c = none ∧ c ≠ '<' ∧ c ≠ '>' ∧ isLetter c = false ∧ isDigit c = false ∧ isBlank c = false

/-- The piece of a token, where the text goes on with `s`. -/
inductive Piece (s : List Char) : Token → List Char → Prop
  | lexeme {t : Token} (ht : Lexeme t) (hs : t.EndsBefore s) : Piece s t t.literal
  | other {c : Char} (hc : IsOther c) (literal : CString) : Piece s ⟨.illegal, literal⟩ [c]

/-- The tokens have the pieces of the text, with blanks before each and behind the last. -/
inductive Cut : List Token → List Char → Prop
  | nil {ws : List Char} (hws : ∀ c ∈ ws, isBlank c = true) : Cut [] ws
  | cons {t : Token} {ts : List Token} {ws w s : List Char} (hws : ∀ c ∈ ws, isBlank c = true)
      (hw : Piece s t w) (h : Cut ts s) : Cut (t :: ts) (ws ++ (w ++ s))

theorem Closed.headD {tail : List Char} (h : Closed tail) (s : List Char) :
    (s ++ tail).headD '\x00' = s.headD '\x00' := by
  cases s with
  | nil => exact h
  | cons c s => rfl

theorem Closed.endsBefore {tail : List Char} (h : Closed tail) {t : Token} {s : List Char}
    (hs : t.EndsBefore s) : t.EndsBefore (s ++ tail) := by
  unfold Token.EndsBefore at hs ⊢
  rwa [h.headD]

theorem Piece.ne_nil {s : List Char} {t : Token} {w : List Char} (h : Piece s t w) :
    ∃ c w', w = c :: w' ∧ isBlank c = false := by
  cases h with
  | lexeme ht hs => exact ht.head
  | other hc literal => exact ⟨_, [], rfl, hc.2.2.2.2.2⟩

theorem Piece.type_ne_eof {s : List Char} {t : Token} {w : List Char} (h : Piece s t w) :
    t.type ≠ .eof := by
  cases h with
  | lexeme ht hs => exact ht.type_ne_eof
  | other hc literal => simp

/-- The longest run of characters that satisfy `p`. -/
theorem exists_run (p : Char → Bool) (s : List Char) :
    ∃ w s', s = w ++ s' ∧ (∀ c ∈ w, p c = true) ∧ ∀ c ∈ s'.head?, p c = false := by
  refine ⟨s.takeWhile p, s.dropWhile p, List.takeWhile_append_dropWhile.symm,
    fun c hc => List.mem_takeWhile_imp hc, fun c hc => ?_⟩
  have := List.head?_dropWhile_not p s
  rw [hc] at this
  simpa using this

theorem run_headD {p : Char → Bool} {s : List Char} (h0 : p '\x00' = false) (h : ∀ c ∈ s.head?, p c = false) :
    p (s.headD '\x00') = false := by
  cases s with
  | nil => exact h0
  | cons c s => exact h c rfl

theorem headD_ne {s : List Char} {c : Char} (h : s.head? ≠ some c) (h0 : c ≠ '\x00') :
    s.headD '\x00' ≠ c := by
  cases s with
  | nil => exact h0.symm
  | cons d s => simpa using h

/-- Every text that begins with neither a blank nor a NUL begins with a piece. -/
theorem exists_piece {c : Char} {s : List Char} (hblank : isBlank c = false) (hnul : c ≠ '\x00')
    (literal : CString) :
    ∃ t w s', c :: s = w ++ s' ∧ Piece s' t w ∧ (t.type = .illegal → t.literal = literal) := by
  cases hsym : symbol c with
  | some type =>
    obtain ⟨-, hill, hends⟩ := symbol_type hsym
    exact ⟨_, [c], s, rfl, .lexeme (.symbol hsym) (hends s), fun h => absurd h hill⟩
  | none =>
    by_cases hgt : c = '>'
    · subst hgt
      by_cases heq : s.head? = some '='
      · obtain ⟨s, rfl⟩ := List.head?_eq_some_iff.mp heq
        exact ⟨_, ['>', '='], s, rfl, .lexeme .gtEq trivial, fun h => by cases h⟩
      · exact ⟨_, ['>'], s, rfl, .lexeme .gt (headD_ne heq (by decide)), fun h => by cases h⟩
    by_cases hlt : c = '<'
    · subst hlt
      by_cases heq : s.head? = some '='
      · obtain ⟨s, rfl⟩ := List.head?_eq_some_iff.mp heq
        exact ⟨_, ['<', '='], s, rfl, .lexeme .ltEq trivial, fun h => by cases h⟩
      · exact ⟨_, ['<'], s, rfl, .lexeme .lt (headD_ne heq (by decide)), fun h => by cases h⟩
    by_cases hletter : isLetter c = true
    · obtain ⟨w, s', rfl, hw, hs'⟩ := exists_run isLetter s
      have hword : Lexeme ⟨Token.getStringType (c :: w), c :: w⟩ := .word (by simp) (by simpa [hletter] using hw)
      refine ⟨_, c :: w, s', rfl,
        .lexeme hword ((Token.endsBefore_word _ _).mpr (run_headD rfl hs')), fun h => ?_⟩
      rcases Token.getStringType_cases (c :: w) with h' | h' <;> simp [h'] at h
    by_cases hdigit : isDigit c = true
    · obtain ⟨w, s', rfl, hw, hs'⟩ := exists_run isDigit s
      have hint : Lexeme ⟨.int, c :: w⟩ := .int (by simp) (by simpa [hdigit] using hw)
      exact ⟨_, c :: w, s', rfl, .lexeme hint (run_headD rfl hs'), fun h => by cases h⟩
    exact ⟨⟨.illegal, literal⟩, [c], s, rfl, .other ⟨hsym, hlt, hgt, by simpa using hletter,
      by simpa using hdigit, hblank⟩ literal, fun _ => rfl⟩

/-- A piece is read. -/
theorem nextToken_piece {t tok : Token} {w s tail pre : List Char} (h : Piece s t w) (htail : Closed tail)
    (hnul : '\x00' ∉ w) (hill : t.type = .illegal → t.literal = tok.literal)
    (hlen : (pre ++ w).length < 65536) {fuel : Nat} (hfuel : w.length < fuel) :
    nextToken fuel tok (after pre (w ++ (s ++ tail))) = (.ok t, after (pre ++ w) (s ++ tail)) := by
  cases h with
  | lexeme ht hs => exact nextToken_lexeme ht (htail.endsBefore hs) hlen hfuel tok
  | @other c hc literal =>
    obtain ⟨hsym, hlt, hgt, hletter, hdigit, hblank⟩ := hc
    obtain rfl : literal = tok.literal := hill rfl
    have hskip := readWhile_after [] pre ([c] ++ (s ++ tail)) (p := isBlank) (by simp) hblank
      (by rw [List.length_append] at hlen; simp only [List.append_nil]; omega) (Nat.zero_lt_of_lt hfuel)
    rw [List.append_nil, List.nil_append] at hskip
    rw [nextToken, Prog.bind_ok hskip, Prog.get_bind]
    simp only [show (after pre ([c] ++ (s ++ tail))).currCh = c from rfl, hsym]
    rw [if_neg hgt, if_neg hlt, if_neg (by rintro rfl; simp at hnul), if_neg (by simp [hletter]),
      if_neg (by simp [hdigit])]
    exact finish_after _ pre c (s ++ tail) (by simp at hlen; omega)

/-- The lexer cuts the text that is left up to the end or a NUL. -/
theorem populateTokens_cut (text pre : List Char) {tail : List Char} (hnul : '\x00' ∉ text) (htail : Closed tail)
    (hlen : (pre ++ text).length < 65536) (tok : Token) :
    ∃ toks, Cut toks text ∧ ∀ fuel, text.length + 1 < fuel →
      ∃ lx, populateTokens fuel tok (after pre (text ++ tail)) = (.ok toks, lx) := by
  -- by induction on the length: the blanks and the piece in front are read, the rest is shorter
  induction hn : text.length using Nat.strong_induction_on generalizing text pre tok with
  | _ n ih =>
    obtain ⟨ws, s, rfl, hws, hs⟩ := exists_run isBlank text
    simp only [List.length_append] at hlen hn
    have hskip : ∀ fuel, ws.length < fuel → nextToken fuel tok (after pre (ws ++ s ++ tail)) =
        nextToken fuel tok (after (pre ++ ws) (s ++ tail)) := by
      intro fuel hfuel
      rw [List.append_assoc]
      exact nextToken_blanks hws (by rw [htail.headD]; exact run_headD rfl hs)
        (by rw [List.length_append]; omega) hfuel tok
    cases s with
    | nil =>
      refine ⟨[], by simpa using Cut.nil hws, fun fuel hfuel => ?_⟩
      obtain ⟨fuel, rfl⟩ : ∃ m, fuel = m + 1 := ⟨fuel - 1, by omega⟩
      obtain ⟨lx, hend⟩ := nextToken_closed htail (pre ++ ws) (by rw [List.length_append]; omega)
        (show 0 < fuel by omega) tok
      have hfirst := (hskip fuel (by simp only [List.length_nil] at hn; omega)).trans hend
      rw [populateTokens, Prog.bind_ok hfirst]
      exact ⟨lx, rfl⟩
    | cons c s =>
      have hc : c ≠ '\x00' := by
        rintro rfl
        simp at hnul
      obtain ⟨t, w, s', hcs, hpiece, hill⟩ := exists_piece (hs c rfl) hc tok.literal
      obtain ⟨c', w', rfl, -⟩ := hpiece.ne_nil
      rw [hcs] at hnul hskip ⊢
      have hlens : (c :: s).length = (c' :: w').length + s'.length := by rw [hcs, List.length_append]
      simp only [List.length_cons] at hlens hlen hn
      simp only [List.mem_append, not_or] at hnul
      obtain ⟨ts, hcut, hrest⟩ := ih s'.length (by omega) s' (pre ++ ws ++ c' :: w')
        hnul.2.2 (by simp only [List.length_append, List.length_cons]; omega) t rfl
      refine ⟨t :: ts, .cons hws hpiece hcut, fun fuel hfuel => ?_⟩
      obtain ⟨fuel, rfl⟩ : ∃ m, fuel = m + 1 := ⟨fuel - 1, by omega⟩
      obtain ⟨lx, hrest⟩ := hrest fuel (by omega)
      refine ⟨lx, populateTokens_cons hpiece.type_ne_eof ?_ hrest⟩
      rw [hskip fuel (by omega), List.append_assoc]
      exact nextToken_piece hpiece htail hnul.2.1 hill
        (by simp only [List.length_append, List.length_cons]; omega)
        (by simp only [List.length_cons]; omega)

/-- **Lexing is lossless and greedy.** A text without NULs that is shorter than the range of the position is
cut into its pieces, one for each token. -/
theorem populateTokens_cuts (input : List Char) (hnul : '\x00' ∉ input) (hlen : input.length < 65535)
    (tok : Token) : ∃ toks, Cut toks input ∧ ∃ n, ∀ fuel, n ≤ fuel →
      ∃ lx, populateTokens fuel tok (Lexer.new input) = (.ok toks, lx) := by
  obtain ⟨toks, hcut, hread⟩ := populateTokens_cut input [] hnul (show Closed [] from rfl)
    (by rw [List.nil_append]; omega) tok
  refine ⟨toks, hcut, input.length + 2, fun fuel hfuel => ?_⟩
  rw [new_eq]
  simpa using hread fuel (by omega)

theorem populateTokens_cuts_word : ∃ toks, Cut toks "a1 $".toList ∧ ∃ n, ∀ fuel, n ≤ fuel →
    ∃ lx, populateTokens fuel ⟨.illegal, []⟩ (Lexer.new "a1 $".toList) = (.ok toks, lx) :=
  populateTokens_cuts "a1 $".toList (by decide) (by decide) ⟨.illegal, []⟩

end Lexer

end SomeDB
