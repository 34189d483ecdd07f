import Mathlib.Data.List.GetD
import SomeDB.Sql.Lexemes

/-!
# How often the lexer reads a character

`Reader` is the lexer with the positions of the input that `readChar` has read. Whatever the functions of the
lexer do, they do it by reading on, so that the state is that after some number of characters (`readerAt`),
and a run of `populateTokens` that returns ends one character behind the first NUL that the lexer sees
(`populateTokens_stops`). On 65535 characters and more without a NUL this is position 0 again, or there is
no such run.
-/

namespace SomeDB

open Lib

/-- The lexer and the positions that it has read, in order. -/
structure Reader where
  lexer : Lexer
  reads : List Nat

abbrev ReaderM (α : Type) := Prog Fault Reader α

namespace Reader

/-- `readChar`; behind the end of the input it reads nothing. -/
def readChar : ReaderM Unit := Prog.modify fun r =>
  { lexer := (Lexer.readChar r.lexer).2
    reads := if r.lexer.aheadPosition.toNat < r.lexer.input.length
      then r.reads ++ [r.lexer.aheadPosition.toNat] else r.reads }

/-- `Lexer(input)`. -/
def new (input : List Char) : Reader := (readChar ⟨⟨input, 0, '\x00'⟩, []⟩).2

/-- Read characters as long as they satisfy `p`. -/
def readWhile (p : Char → Bool) : Nat → ReaderM CString
  | 0 => Prog.fault .diverges
  | fuel + 1 => do
    let c := (← Prog.get).lexer.currCh
    if p c then do
      readChar
      let str ← readWhile p fuel
      pure (c :: str)
    else pure []

/-- A token that ends with the current character. -/
def finish (token : Token) : ReaderM Token := do
  readChar
  pure token

/-- `nextToken`. -/
def nextToken (fuel : Nat) (token : Token) : ReaderM Token := do
  let _ ← readWhile isBlank fuel
  let r ← Prog.get
  let c := r.lexer.currCh
  match Lexer.symbol c with
  | some type => finish ⟨type, [c]⟩
  | none =>
    if c = '>' then
      if r.lexer.peekNext = '=' then do
        readChar
        finish ⟨.gtEq, ['>', '=']⟩
      else finish ⟨.gt, [c]⟩
    else if c = '<' then
      if r.lexer.peekNext = '=' then do
        readChar
        finish ⟨.ltEq, ['<', '=']⟩
      else finish ⟨.lt, [c]⟩
    else if c = '\x00' then finish ⟨.eof, []⟩
    else if isLetter c then do
      let str ← readWhile isLetter fuel
      pure ⟨Token.getStringType str, str⟩
    else if isDigit c then do
      let num ← readWhile isDigit fuel
      pure ⟨.int, num⟩
    else finish { token with type := .illegal }

/-- `populateTokens`. -/
def populateTokens : Nat → Token → ReaderM (List Token)
  | 0, _ => Prog.fault .diverges
  | fuel + 1, tok => do
    let tok ← nextToken fuel tok
    if tok.type = .eof then pure []
    else do
      let toks ← populateTokens fuel tok
      pure (tok :: toks)

/-! ## Without the reads it is the lexer -/

open Prog (Views)

theorem views_readChar : Views lexer readChar Lexer.readChar := fun _ => rfl

theorem views_readWhile (p : Char → Bool) (fuel : Nat) :
    Views lexer (readWhile p fuel) (Lexer.readWhile p fuel) := by
  induction fuel with
  | zero => exact .fault _
  | succ fuel ih =>
    unfold readWhile Lexer.readWhile
    refine .get_bind fun r => ?_
    simp only
    split
    · exact views_readChar.bind fun _ => ih.bind fun str => .pure _
    · exact .pure _

theorem views_finish (token : Token) : Views lexer (finish token) (Lexer.finish token) :=
  views_readChar.bind fun _ => .pure token

theorem views_nextToken (fuel : Nat) (token : Token) :
    Views lexer (nextToken fuel token) (Lexer.nextToken fuel token) := by
  unfold nextToken Lexer.nextToken
  refine (views_readWhile isBlank fuel).bind fun _ => .get_bind fun r => ?_
  cases hsym : Lexer.symbol r.lexer.currCh with
  | some type =>
    simp only [hsym]
    exact views_finish _
  | none =>
    simp only [hsym]
    split
    · split
      · exact views_readChar.bind fun _ => views_finish _
      · exact views_finish _
    split
    · split
      · exact views_readChar.bind fun _ => views_finish _
      · exact views_finish _
    split
    · exact views_finish _
    split
    · exact (views_readWhile isLetter fuel).bind fun str => .pure _
    split
    · exact (views_readWhile isDigit fuel).bind fun num => .pure _
    · exact views_finish _

theorem views_populateTokens (fuel : Nat) (tok : Token) :
    Views lexer (populateTokens fuel tok) (Lexer.populateTokens fuel tok) := by
  induction fuel generalizing tok with
  | zero => exact .fault _
  | succ fuel ih =>
    unfold populateTokens Lexer.populateTokens
    refine (views_nextToken fuel tok).bind fun tok => ?_
    split
    · exact .pure _
    · exact (ih tok).bind fun toks => .pure _

/-! ## The state after some characters -/

section At

variable {input : List Char} {i : Nat}

/-- The character that the lexer sees at its `i`-th reading: positions have 16 bits. -/
def charAt (input : List Char) (i : Nat) : Char := input.getD (i % 65536) '\x00'

/-- The positions of the readings up to `i`, those inside the input. -/
def readsUpTo (input : List Char) (i : Nat) : List Nat :=
  ((List.range (i + 1)).map (· % 65536)).filter (· < input.length)

/-- The reader at its `i`-th reading. -/
def readerAt (input : List Char) (i : Nat) : Reader :=
  ⟨⟨input, UInt16.ofNat (i + 1), charAt input i⟩, readsUpTo input i⟩

theorem new_eq (input : List Char) : new input = readerAt input 0 := by
  cases input <;> rfl

theorem readsUpTo_succ (input : List Char) (i : Nat) : readsUpTo input (i + 1) =
    if (i + 1) % 65536 < input.length then readsUpTo input i ++ [(i + 1) % 65536] else readsUpTo input i := by
  unfold readsUpTo
  rw [List.range_succ, List.map_append, List.filter_append]
  split <;> simp_all

theorem peekNext_readerAt (input : List Char) (i : Nat) :
    (readerAt input i).lexer.peekNext = charAt input (i + 1) := by
  simp [readerAt, Lexer.peekNext, charAt]

theorem readChar_readerAt (input : List Char) (i : Nat) :
    readChar (readerAt input i) = (.ok (), readerAt input (i + 1)) := by
  have hpeek := peekNext_readerAt input i
  unfold readChar Lexer.readChar
  simp only [Prog.modify, hpeek]
  unfold readerAt
  rw [readsUpTo_succ]
  simp [UInt16.ofNat_add]

/-- What is read from `i` on, up to `j`, is no NUL. -/
def NoNul (input : List Char) (i j : Nat) : Prop := ∀ k, i ≤ k → k < j → charAt input k ≠ '\x00'

theorem NoNul.trans {j k : Nat} (h₁ : NoNul input i j) (h₂ : NoNul input j k) : NoNul input i k := by
  intro l hi hk
  by_cases hj : l < j
  · exact h₁ l hi hj
  · exact h₂ l (by omega) hk

theorem NoNul.single (h : charAt input i ≠ '\x00') : NoNul input i (i + 1) := by
  intro k hi hk
  obtain rfl : k = i := by omega
  exact h

theorem readWhile_readerAt {p : Char → Bool} (hp : p '\x00' = false) {fuel : Nat} {w : CString} {r : Reader}
    (h : readWhile p fuel (readerAt input i) = (.ok w, r)) :
    ∃ j, r = readerAt input j ∧ i ≤ j ∧ NoNul input i j := by
  induction fuel generalizing i w with
  | zero => cases h
  | succ fuel ih =>
    rw [readWhile, Prog.get_bind] at h
    have hcurr : (readerAt input i).lexer.currCh = charAt input i := rfl
    simp only [hcurr] at h
    split at h
    · next hc =>
      rw [Prog.bind_ok (readChar_readerAt input i)] at h
      obtain ⟨w', r', h₁, h₂⟩ := Prog.bind_eq_ok h
      cases h₂
      obtain ⟨j, rfl, hij, hno⟩ := ih h₁
      have hne : charAt input i ≠ '\x00' := by
        intro heq
        rw [heq, hp] at hc
        cases hc
      exact ⟨j, rfl, by omega, (NoNul.single hne).trans hno⟩
    · cases h
      exact ⟨i, rfl, Nat.le_refl _, fun k hi hk => by omega⟩

theorem finish_readerAt (token : Token) (input : List Char) (i : Nat) :
    finish token (readerAt input i) = (.ok token, readerAt input (i + 1)) := by
  rw [finish, Prog.bind_ok (readChar_readerAt input i)]
  rfl

/-- A token has no NUL in it; the end is one. -/
theorem nextToken_readerAt {fuel : Nat} {token t : Token} {r : Reader}
    (h : nextToken fuel token (readerAt input i) = (.ok t, r)) :
    (t.type ≠ .eof ∧ ∃ j, r = readerAt input j ∧ i ≤ j ∧ NoNul input i j) ∨
      (t.type = .eof ∧ ∃ n, r = readerAt input (n + 1) ∧ i ≤ n ∧ NoNul input i n ∧ charAt input n = '\x00') := by
  obtain ⟨ws, r₁, h₁, h⟩ := Prog.bind_eq_ok h
  obtain ⟨j, rfl, hij, hno⟩ := readWhile_readerAt rfl h₁
  rw [Prog.get_bind] at h
  have hcurr : (readerAt input j).lexer.currCh = charAt input j := rfl
  simp only [hcurr, peekNext_readerAt] at h
  -- a token of one character, and one of two
  have hone : ∀ {t' : Token}, t'.type ≠ .eof → charAt input j ≠ '\x00' →
      finish t' (readerAt input j) = (.ok t, r) →
      t.type ≠ .eof ∧ ∃ k, r = readerAt input k ∧ i ≤ k ∧ NoNul input i k := by
    intro t' ht' hne h
    rw [finish_readerAt] at h
    cases h
    exact ⟨ht', j + 1, rfl, by omega, hno.trans (.single hne)⟩
  have htwo : ∀ {t' : Token}, t'.type ≠ .eof → charAt input j ≠ '\x00' → charAt input (j + 1) = '=' →
      (readChar >>= fun _ => finish t') (readerAt input j) = (.ok t, r) →
      t.type ≠ .eof ∧ ∃ k, r = readerAt input k ∧ i ≤ k ∧ NoNul input i k := by
    intro t' ht' hne heq h
    rw [Prog.bind_ok (readChar_readerAt input j), finish_readerAt] at h
    cases h
    exact ⟨ht', j + 2, rfl, by omega,
      (hno.trans (.single hne)).trans (.single (by rw [heq]; decide))⟩
  cases hsym : Lexer.symbol (charAt input j) with
  | some type =>
    simp only [hsym] at h
    refine .inl (hone (Lexer.symbol_type hsym).1 (fun heq => ?_) h)
    rw [heq] at hsym
    cases hsym
  | none =>
    simp only [hsym] at h
    split at h
    · next hgt =>
      have hne : charAt input j ≠ '\x00' := by rw [hgt]; decide
      split at h
      · next heq => exact .inl (htwo (by simp) hne heq h)
      · exact .inl (hone (by simp) hne h)
    split at h
    · next hlt =>
      have hne : charAt input j ≠ '\x00' := by rw [hlt]; decide
      split at h
      · next heq => exact .inl (htwo (by simp) hne heq h)
      · exact .inl (hone (by simp) hne h)
    split at h
    · next hnul =>
      rw [finish_readerAt] at h
      cases h
      exact .inr ⟨rfl, j, rfl, hij, hno, hnul⟩
    · next hne =>
      split at h
      · obtain ⟨str, r₂, h₂, h⟩ := Prog.bind_eq_ok h
        cases h
        obtain ⟨k, rfl, hjk, hno'⟩ := readWhile_readerAt rfl h₂
        refine .inl ⟨?_, k, rfl, by omega, hno.trans hno'⟩
        rcases Token.getStringType_cases str with h' | h' <;> simp [h']
      split at h
      · obtain ⟨num, r₂, h₂, h⟩ := Prog.bind_eq_ok h
        cases h
        obtain ⟨k, rfl, hjk, hno'⟩ := readWhile_readerAt rfl h₂
        exact .inl ⟨by simp, k, rfl, by omega, hno.trans hno'⟩
      · exact .inl (hone (by simp) hne h)

/-- A run that returns has read one character behind the first NUL. -/
theorem populateTokens_stops {fuel : Nat} {tok : Token} {toks : List Token} {r : Reader}
    (h : populateTokens fuel tok (readerAt input i) = (.ok toks, r)) :
    ∃ n, r = readerAt input (n + 1) ∧ i ≤ n ∧ NoNul input i n ∧ charAt input n = '\x00' := by
  induction fuel generalizing i tok toks with
  | zero => cases h
  | succ fuel ih =>
    rw [populateTokens] at h
    obtain ⟨t, r₁, h₁, h⟩ := Prog.bind_eq_ok h
    rcases nextToken_readerAt h₁ with ⟨htype, j, rfl, hij, hno⟩ | ⟨htype, n, rfl, hn⟩
    · rw [if_neg htype] at h
      obtain ⟨ts, r₂, h₂, h⟩ := Prog.bind_eq_ok h
      cases h
      obtain ⟨n, rfl, hjn, hno', hnul⟩ := ih h₂
      exact ⟨n, rfl, by omega, hno.trans hno', hnul⟩
    · rw [if_pos htype] at h
      cases h
      exact ⟨n, rfl, hn⟩

theorem nodup_readsUpTo_of_lt (h : i < 65536) : (readsUpTo input i).Nodup := by
  unfold readsUpTo
  have hid : (List.range (i + 1)).map (· % 65536) = List.range (i + 1) := by
    conv_rhs => rw [← List.map_id (List.range (i + 1))]
    refine List.map_congr_left fun k hk => ?_
    have := List.mem_range.mp hk
    exact Nat.mod_eq_of_lt (by omega)
  rw [hid]
  exact List.nodup_range.filter _

/-- Once the position starts again, its first character is read again. -/
theorem not_nodup_readsUpTo (hpos : 0 < input.length) (h : 65536 ≤ i) : ¬ (readsUpTo input i).Nodup := by
  obtain ⟨d, hd⟩ : ∃ d, i + 1 = 65536 + (d + 1) := ⟨i - 65536, by omega⟩
  unfold readsUpTo
  rw [hd, List.range_add, List.map_append, List.filter_append]
  intro hnodup
  have hzero : ∀ {l : List Nat}, (∃ k ∈ l, k % 65536 = 0) →
      0 ∈ (l.map (· % 65536)).filter (· < input.length) := by
    rintro l ⟨k, hk, hmod⟩
    exact List.mem_filter.mpr ⟨List.mem_map.mpr ⟨k, hk, hmod⟩, by simpa using hpos⟩
  have h₁ := hzero (l := List.range 65536) ⟨0, List.mem_range.mpr (by omega), rfl⟩
  have h₂ := hzero (l := (List.range (d + 1)).map (65536 + ·))
    ⟨65536, List.mem_map.mpr ⟨0, List.mem_range.mpr (by omega), rfl⟩, rfl⟩
  exact (List.nodup_append.mp hnodup).2.2 0 h₁ 0 h₂ rfl

/-- The input ends, or has a NUL, before the position can start again. -/
theorem exists_nul_iff (input : List Char) :
    (∃ n, n < 65535 ∧ charAt input n = '\x00') ↔ input.length < 65535 ∨ '\x00' ∈ input.take 65535 := by
  unfold charAt
  constructor
  · rintro ⟨n, hn, hnul⟩
    rw [Nat.mod_eq_of_lt (by omega)] at hnul
    by_cases hlt : n < input.length
    · rw [List.getD_eq_getElem _ _ hlt] at hnul
      refine .inr (List.mem_iff_getElem.mpr ⟨n, ?_, ?_⟩)
      · rw [List.length_take]
        omega
      · rw [List.getElem_take]
        exact hnul
    · exact .inl (by omega)
  · rintro (hlen | hmem)
    · refine ⟨input.length, hlen, ?_⟩
      rw [Nat.mod_eq_of_lt (by omega)]
      exact List.getD_eq_default _ _ (Nat.le_refl _)
    · obtain ⟨n, hn, hnul⟩ := List.mem_iff_getElem.mp hmem
      rw [List.length_take] at hn
      rw [List.getElem_take] at hnul
      refine ⟨n, by omega, ?_⟩
      rw [Nat.mod_eq_of_lt (by omega), List.getD_eq_getElem _ _ (by omega)]
      exact hnul

/-- The text up to the first NUL or the end is tokenised. -/
theorem populateTokens_returns {n : Nat} (hn : n < 65535) (hnul : charAt input n = '\x00') (tok : Token) :
    ∃ fuel toks r, populateTokens fuel tok (new input) = (.ok toks, r) := by
  obtain ⟨text, tail, rfl, htext, htail⟩ := Lexer.exists_run (fun c => c ≠ '\x00') input
  have hclosed : Lexer.Closed tail := by
    unfold Lexer.Closed
    cases tail with
    | nil => rfl
    | cons c tail => simpa using htail c rfl
  have hlen : text.length < 65535 := by
    by_contra hge
    unfold charAt at hnul
    rw [Nat.mod_eq_of_lt (by omega), List.getD_append _ _ _ _ (by omega),
      List.getD_eq_getElem _ _ (show n < text.length by omega)] at hnul
    simpa [hnul] using htext _ (List.getElem_mem (show n < text.length by omega))
  obtain ⟨toks, -, hread⟩ := Lexer.populateTokens_cut text []
    (fun hmem => by simpa using htext _ hmem) hclosed (by rw [List.nil_append]; omega) tok
  obtain ⟨lx, hread⟩ := hread (text.length + 2) (by omega)
  have hlexer : (new (text ++ tail)).lexer = Lexer.after [] (text ++ tail) := Lexer.new_eq _
  rw [← hlexer] at hread
  obtain ⟨r, hrun, -⟩ := (views_populateTokens _ tok).eq_ok hread
  exact ⟨_, toks, r, hrun⟩

/-- **Tokenising ends.** `populateTokens` comes to an end with no character read twice exactly if the input
ends, or has a NUL, before its 65535th character. -/
theorem populateTokens_ends_iff (input : List Char) (tok : Token) :
    (∃ fuel toks r, populateTokens fuel tok (new input) = (.ok toks, r) ∧ r.reads.Nodup) ↔
      input.length < 65535 ∨ '\x00' ∈ input.take 65535 := by
  rw [← exists_nul_iff]
  constructor
  · rintro ⟨fuel, toks, r, hrun, hnodup⟩
    rw [new_eq] at hrun
    obtain ⟨n, rfl, -, hno, hnul⟩ := populateTokens_stops hrun
    refine ⟨n, ?_, hnul⟩
    by_contra hge
    have hpos : 0 < input.length := by
      by_contra hempty
      obtain rfl : input = [] := List.length_eq_zero_iff.mp (by omega)
      exact hno 0 (Nat.le_refl _) (by omega) rfl
    exact not_nodup_readsUpTo hpos (show 65536 ≤ n + 1 by omega) hnodup
  · rintro ⟨m, hm, hmnul⟩
    obtain ⟨fuel, toks, r, hrun⟩ := populateTokens_returns hm hmnul tok
    refine ⟨fuel, toks, r, hrun, ?_⟩
    rw [new_eq] at hrun
    obtain ⟨n, rfl, -, hno, -⟩ := populateTokens_stops hrun
    refine nodup_readsUpTo_of_lt ?_
    by_contra hge
    exact hno m (Nat.zero_le _) (by omega) hmnul

/-- On 65536 letters no run returns: the lexer reads them over and over. -/
theorem populateTokens_wraps : ¬ ∃ fuel toks r,
    populateTokens fuel ⟨.illegal, []⟩ (new (List.replicate 65536 'a')) = (.ok toks, r) ∧ r.reads.Nodup := by
  rintro ⟨fuel, toks, r, hrun, -⟩
  rw [new_eq] at hrun
  obtain ⟨n, -, -, -, hnul⟩ := populateTokens_stops hrun
  unfold charAt at hnul
  have hlt : n % 65536 < (List.replicate 65536 'a').length := by
    rw [List.length_replicate]
    exact Nat.mod_lt _ (by omega)
  rw [List.getD_eq_getElem _ _ hlt, List.getElem_replicate] at hnul
  cases hnul

end At

end Reader

end SomeDB
