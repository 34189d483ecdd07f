import SomeDB.Sql.Parser

/-!
# Positions of the parser

`Cursor` is the state of the parser as the source has it: all the tokens, and `position` with the positions
before it. The functions are those of the parser over this state. `Finishes m s k`: from `s`, `m`
comes to an end, keeps `position` in its bounds, and leaves at least `k` tokens fewer behind it if it returns.
One lemma for each function, the recursion by induction on the fuel (`finishes`), gives `parse_ends`.

What the functions return is what the parser over the list of remaining tokens returns (`parse_of_cursor`).
-/

namespace SomeDB

open Lib

/-- `Parser`: `trail` has the values of `position` before the current one. -/
structure Cursor where
  tokens : List Token
  position : Int
  trail : List Int

abbrev CursorM (α : Type) := Prog ParseError Cursor α

namespace Cursor

/-- `Parser(lexer)`, once the tokens are there. -/
def new (tokens : List Token) : Cursor := ⟨tokens, -1, []⟩

/-- The values of `position` so far. -/
def positions (s : Cursor) : List Int := s.position :: s.trail

/-- `++position`. -/
def advance (s : Cursor) : Cursor :=
  { s with position := s.position + 1, trail := s.position :: s.trail }

/-- `nextTokenPos`. -/
def nextTokenPos : CursorM Int := do
  let s ← Prog.get
  if s.position < s.tokens.length then do
    Prog.modify advance
    pure (s.position + 1)
  else pure (-1)

/-- `peekTokenPos`. -/
def peekTokenPos (s : Cursor) : Int :=
  if s.position + 1 < s.tokens.length then s.position + 1 else -1

/-- The token at a position, if there is one. -/
def token? (s : Cursor) (pos : Int) : Option Token := if pos < 0 then none else s.tokens[pos.toNat]?

/-- `tokens.at(pos)`. -/
def tokenAt (pos : Int) : CursorM Token := do
  match (← Prog.get).token? pos with
  | some t => pure t
  | none => Prog.fault .outOfRange

/-- `tokens.at(nextTokenPos())`. -/
def takeToken : CursorM Token := do
  let pos ← nextTokenPos
  tokenAt pos

/-- `tokens.at(peekTokenPos())`. -/
def peekToken : CursorM Token := do
  let s ← Prog.get
  tokenAt s.peekTokenPos

/-- `nextPrecedence`. -/
def nextPrecedence : CursorM Nat := do
  let s ← Prog.get
  if s.peekTokenPos = -1 then pure 0
  else do
    let next ← tokenAt s.peekTokenPos
    pure next.type.precedence

/-- The loop of `populateProjectionList`. -/
def projectionItems : Nat → CursorM (List SqlExpr)
  | 0 => Prog.fault .diverges
  | fuel + 1 => do
    let peek ← peekToken
    if peek.type = .comma then do
      let _ ← nextTokenPos
      let item ← takeToken
      let items ← projectionItems fuel
      pure (.identifier item.literal :: items)
    else pure []

/-- `populateProjectionList`. -/
def populateProjectionList (fuel : Nat) : CursorM (List SqlExpr) := do
  let peek ← peekToken
  if peek.type ≠ .asterisk ∧ peek.type ≠ .identifier then
    Prog.fault (.runtimeError
      ("Projection needs to start with identifier or *, but started with ".toList ++ peek.literal))
  else do
    let first ← takeToken
    let items ← projectionItems fuel
    pure (.identifier first.literal :: items)

/-- `peekTokenPos() != -1 && tokens.at(peekTokenPos()).literal == "WHERE"`. -/
def atWhere : CursorM Bool := do
  let s ← Prog.get
  if s.peekTokenPos ≠ -1 then do
    let peek ← tokenAt s.peekTokenPos
    pure (peek.literal = "WHERE".toList)
  else pure false

mutual

/-- `parse`. -/
def parse : Nat → Nat → CursorM SqlExpr
  | 0, _ => Prog.fault .diverges
  | fuel + 1, precedence => do
    let expr ← parsePrefix fuel
    parseWhile fuel precedence expr

/-- The loop of `parse`. -/
def parseWhile : Nat → Nat → SqlExpr → CursorM SqlExpr
  | 0, _, _ => Prog.fault .diverges
  | fuel + 1, precedence, expr => do
    let next ← nextPrecedence
    if precedence < next then do
      let expr ← parseInfix fuel expr next
      parseWhile fuel precedence expr
    else pure expr

/-- `parsePrefix`. -/
def parsePrefix : Nat → CursorM SqlExpr
  | 0 => Prog.fault .diverges
  | fuel + 1 => do
    let tok ← takeToken
    match tok.type with
    | .identifier | .int => pure (.identifier tok.literal)
    | .lparen => do
      let expr ← parse fuel 0
      let _ ← nextTokenPos
      pure expr
    | .keyword => parseSelectStatement fuel
    | _ => Prog.fault (.runtimeError "Unsupported prefix token".toList)

/-- `parseInfix`. -/
def parseInfix : Nat → SqlExpr → Nat → CursorM SqlExpr
  | 0, _, _ => Prog.fault .diverges
  | fuel + 1, left, precedence => do
    let tok ← peekToken
    if tok.type.isInfix then do
      let _ ← nextTokenPos
      let right ← parse fuel precedence
      pure (.binary left tok.literal right)
    else Prog.fault (.runtimeError "Unsupported infix token".toList)

/-- `parseSelectStatement`; it looks at its own keyword, and does nothing with it. -/
def parseSelectStatement : Nat → CursorM SqlExpr
  | 0 => Prog.fault .diverges
  | fuel + 1 => do
    let _ ← tokenAt (← Prog.get).position
    let projection ← populateProjectionList fuel
    let tok ← takeToken
    if tok.literal ≠ "FROM".toList then do
      let near ← tokenAt (← Prog.get).position
      Prog.fault (.runtimeError ("Invalid SELECT statement near: ".toList ++ near.literal))
    else do
      let table ← takeToken
      if (← atWhere) then do
        let _ ← nextTokenPos
        let selection ← parse fuel 0
        pure (.select table.literal projection (some selection))
      else pure (.select table.literal projection none)

end

/-! ## The functions come to an end -/

section Ends

variable {α β : Type} {tokens : List Token} {s : Cursor}

/-- The position is in its bounds, and always was. -/
structure Within (tokens : List Token) (s : Cursor) : Prop where
  tokens_eq : s.tokens = tokens
  bounds : ∀ p ∈ s.positions, -1 ≤ p ∧ p ≤ tokens.length

/-- How far the position can still go. -/
def room (s : Cursor) : Nat := (s.tokens.length - s.position).toNat

/-- `m` returns with a state as in `Q` or throws, and the position stays in its bounds. -/
def Finishes (tokens : List Token) (m : CursorM α) (s : Cursor) (Q : Cursor → Prop) : Prop :=
  (∀ a s', m s = (.ok a, s') → Within tokens s' ∧ Q s') ∧
    ∀ e s', m s = (.error e, s') → Within tokens s' ∧ e ≠ .diverges

theorem Finishes.of_ok {m : CursorM α} {Q : Cursor → Prop} {a : α} {s' : Cursor} (h : m s = (.ok a, s'))
    (hs' : Within tokens s') (hQ : Q s') : Finishes tokens m s Q := by
  constructor
  · intro b t hb
    rw [h] at hb
    cases hb
    exact ⟨hs', hQ⟩
  · intro e t he
    rw [h] at he
    cases he

theorem Finishes.pure (hs : Within tokens s) {Q : Cursor → Prop} (hQ : Q s) (a : α) :
    Finishes tokens (Pure.pure a) s Q := .of_ok rfl hs hQ

theorem Finishes.of_error {m : CursorM α} {e : ParseError} {s' : Cursor} (h : m s = (.error e, s'))
    (hs' : Within tokens s') (he : e ≠ .diverges) (Q : Cursor → Prop) : Finishes tokens m s Q := by
  constructor
  · intro a t ha
    rw [h] at ha
    cases ha
  · intro e' t ht
    rw [h] at ht
    cases ht
    exact ⟨hs', he⟩

theorem Finishes.runtimeError (hs : Within tokens s) (what : CString) (Q : Cursor → Prop) :
    Finishes tokens (Prog.fault (.runtimeError what) : CursorM α) s Q :=
  .of_error rfl hs (by simp) Q

theorem Finishes.bind {m : CursorM α} {f : α → CursorM β} {Q R : Cursor → Prop} (hm : Finishes tokens m s R)
    (hf : ∀ a s', Within tokens s' → R s' → Finishes tokens (f a) s' Q) :
    Finishes tokens (m >>= f) s Q := by
  rcases h : m s with ⟨e | a, s'⟩
  · obtain ⟨hs', he⟩ := hm.2 e s' h
    exact .of_error (Prog.bind_error h) hs' he Q
  · obtain ⟨hs', hR⟩ := hm.1 a s' h
    have hfa := hf a s' hs' hR
    unfold Finishes
    rwa [Prog.bind_ok h]

theorem Finishes.get_bind {f : Cursor → CursorM α} {Q : Cursor → Prop} (h : Finishes tokens (f s) s Q) :
    Finishes tokens (Prog.get >>= f) s Q := h

theorem Finishes.mono {m : CursorM α} {Q R : Cursor → Prop} (hm : Finishes tokens m s R)
    (h : ∀ s', Within tokens s' → R s' → Q s') : Finishes tokens m s Q :=
  ⟨fun a s' ha => ⟨(hm.1 a s' ha).1, h s' (hm.1 a s' ha).1 (hm.1 a s' ha).2⟩, hm.2⟩

theorem Within.new (tokens : List Token) : Within tokens (new tokens) := by
  refine ⟨rfl, fun p hp => ?_⟩
  obtain rfl : p = -1 := by simpa [positions, Cursor.new] using hp
  omega

theorem Within.advance (hs : Within tokens s) (h : s.position < tokens.length) :
    Within tokens s.advance := by
  refine ⟨hs.tokens_eq, fun p hp => ?_⟩
  rcases List.mem_cons.mp hp with rfl | hp
  · have := (hs.bounds s.position (List.mem_cons_self ..)).1
    simp only [Cursor.advance]
    omega
  · exact hs.bounds p hp

theorem room_advance (hs : Within tokens s) (h : s.position < tokens.length) :
    s.advance.room + 1 = s.room := by
  unfold room Cursor.advance
  simp only [hs.tokens_eq]
  omega

theorem token?_bounds {pos : Int} {t : Token} (h : s.token? pos = some t) :
    0 ≤ pos ∧ pos < s.tokens.length := by
  unfold token? at h
  split at h
  · cases h
  · have := (List.getElem?_eq_some_iff.mp h).1
    omega

theorem tokenAt_some {pos : Int} {t : Token} (h : s.token? pos = some t) : tokenAt pos s = (.ok t, s) := by
  rw [tokenAt, Prog.get_bind, h]
  rfl

theorem tokenAt_none {pos : Int} (h : s.token? pos = none) : tokenAt pos s = (.error .outOfRange, s) := by
  rw [tokenAt, Prog.get_bind, h]
  rfl

theorem finishes_tokenAt (hs : Within tokens s) (pos : Int) :
    Finishes tokens (tokenAt pos) s (fun s' => s' = s ∧ 0 ≤ pos ∧ pos < tokens.length) := by
  cases h : s.token? pos with
  | none => exact .of_error (tokenAt_none h) hs (by simp) _
  | some t =>
    have hbounds := token?_bounds h
    rw [hs.tokens_eq] at hbounds
    exact .of_ok (tokenAt_some h) hs ⟨rfl, hbounds⟩

theorem finishes_peekToken (hs : Within tokens s) :
    Finishes tokens peekToken s (fun s' => s' = s ∧ s.position < tokens.length) := by
  refine (finishes_tokenAt hs s.peekTokenPos).mono ?_
  rintro _ - ⟨rfl, h0, hlt⟩
  refine ⟨rfl, ?_⟩
  unfold peekTokenPos at h0 hlt
  split at hlt <;> omega

theorem nextTokenPos_of_lt (h : s.position < s.tokens.length) :
    nextTokenPos s = (.ok (s.position + 1), s.advance) := by
  rw [nextTokenPos, Prog.get_bind, if_pos h]
  rfl

theorem nextTokenPos_of_not_lt (h : ¬ s.position < s.tokens.length) : nextTokenPos s = (.ok (-1), s) := by
  rw [nextTokenPos, Prog.get_bind, if_neg h]
  rfl

theorem finishes_nextTokenPos (hs : Within tokens s) : Finishes tokens nextTokenPos s
    (fun s' => s'.room ≤ s.room ∧ (s.position < tokens.length → s'.room + 1 ≤ s.room)) := by
  by_cases hlt : s.position < tokens.length
  · have hroom := room_advance hs hlt
    exact .of_ok (nextTokenPos_of_lt (by rwa [hs.tokens_eq])) (hs.advance hlt) ⟨by omega, fun _ => by omega⟩
  · exact .of_ok (nextTokenPos_of_not_lt (by rwa [hs.tokens_eq])) hs ⟨Nat.le_refl _, fun h => absurd h hlt⟩

theorem finishes_takeToken (hs : Within tokens s) :
    Finishes tokens takeToken s (fun s' => s'.room + 1 ≤ s.room) := by
  by_cases hlt : s.position < tokens.length
  · refine (finishes_nextTokenPos hs).bind fun pos s' hs' hroom => ?_
    refine (finishes_tokenAt hs' pos).mono ?_
    rintro _ - ⟨rfl, -⟩
    exact hroom.2 hlt
  · -- at the end there is no position to look at
    have hrun := nextTokenPos_of_not_lt (s := s) (by rwa [hs.tokens_eq])
    have hnone : s.token? (-1) = none := rfl
    exact .of_error (by rw [takeToken, Prog.bind_ok hrun, tokenAt_none hnone]) hs (by simp) _

theorem finishes_nextPrecedence (hs : Within tokens s) :
    Finishes tokens nextPrecedence s (fun s' => s' = s) := by
  unfold nextPrecedence
  apply Finishes.get_bind
  split
  · exact .pure hs (by rfl) 0
  · refine (finishes_tokenAt hs s.peekTokenPos).bind ?_
    rintro next _ hs' ⟨rfl, -⟩
    exact .pure hs' (by rfl) _

theorem finishes_atWhere (hs : Within tokens s) : Finishes tokens atWhere s (fun s' => s' = s) := by
  unfold atWhere
  apply Finishes.get_bind
  split
  · refine (finishes_tokenAt hs s.peekTokenPos).bind ?_
    rintro peek _ hs' ⟨rfl, -⟩
    exact .pure hs' (by rfl) _
  · exact .pure hs (by rfl) false

theorem finishes_projectionItems (fuel : Nat) (hs : Within tokens s) (hfuel : s.room + 1 ≤ fuel) :
    Finishes tokens (projectionItems fuel) s (fun s' => s'.room ≤ s.room) := by
  induction fuel generalizing s with
  | zero => omega
  | succ fuel ih =>
    unfold projectionItems
    refine (finishes_peekToken hs).bind ?_
    rintro peek _ hs ⟨rfl, hlt⟩
    split
    · refine (finishes_nextTokenPos hs).bind fun _ s₁ hs₁ h₁ => ?_
      have hroom₁ := h₁.2 hlt
      refine (finishes_takeToken hs₁).bind fun item s₂ hs₂ h₂ => ?_
      refine (ih hs₂ (by omega)).bind fun items s₃ hs₃ h₃ => .pure hs₃ (by omega) _
    · exact .pure hs (Nat.le_refl _) _

theorem finishes_populateProjectionList {fuel : Nat} (hs : Within tokens s) (hfuel : s.room + 1 ≤ fuel) :
    Finishes tokens (populateProjectionList fuel) s (fun s' => s'.room + 1 ≤ s.room) := by
  unfold populateProjectionList
  refine (finishes_peekToken hs).bind ?_
  rintro peek _ hs ⟨rfl, -⟩
  split
  · exact .runtimeError hs _ _
  · refine (finishes_takeToken hs).bind fun first s₁ hs₁ h₁ => ?_
    refine (finishes_projectionItems fuel hs₁ (by omega)).bind fun items s₂ hs₂ h₂ => ?_
    exact .pure hs₂ (by omega) _

/-- With `fuel` for every token that is left, the functions come to an end; all but the loop take a token. -/
structure AllFinish (tokens : List Token) (fuel : Nat) : Prop where
  parse : ∀ {s : Cursor} (p : Nat), Within tokens s → 4 * s.room + 4 ≤ fuel →
    Finishes tokens (parse fuel p) s (fun s' => s'.room + 1 ≤ s.room)
  parseWhile : ∀ {s : Cursor} (p : Nat) (expr : SqlExpr), Within tokens s → 4 * s.room + 2 ≤ fuel →
    Finishes tokens (parseWhile fuel p expr) s (fun s' => s'.room ≤ s.room)
  parsePrefix : ∀ {s : Cursor}, Within tokens s → 4 * s.room + 3 ≤ fuel →
    Finishes tokens (parsePrefix fuel) s (fun s' => s'.room + 1 ≤ s.room)
  parseInfix : ∀ {s : Cursor} (left : SqlExpr) (p : Nat), Within tokens s → 4 * s.room + 1 ≤ fuel →
    Finishes tokens (parseInfix fuel left p) s (fun s' => s'.room + 1 ≤ s.room)
  parseSelectStatement : ∀ {s : Cursor}, Within tokens s → 4 * s.room + 2 ≤ fuel →
    Finishes tokens (parseSelectStatement fuel) s (fun s' => s'.room + 1 ≤ s.room)

theorem allFinish (tokens : List Token) (fuel : Nat) : AllFinish tokens fuel := by
  induction fuel with
  | zero => constructor <;> intros <;> omega
  | succ fuel ih =>
    constructor
    · intro s p hs hfuel
      unfold Cursor.parse
      refine (ih.parsePrefix hs (by omega)).bind fun expr s₁ hs₁ h₁ => ?_
      exact (ih.parseWhile p expr hs₁ (by omega)).mono fun s₂ _ h₂ => by omega
    · intro s p expr hs hfuel
      unfold Cursor.parseWhile
      refine (finishes_nextPrecedence hs).bind ?_
      rintro next _ hs rfl
      split
      · refine (ih.parseInfix expr next hs (by omega)).bind fun expr s₁ hs₁ h₁ => ?_
        exact (ih.parseWhile p expr hs₁ (by omega)).mono fun s₂ _ h₂ => by omega
      · exact .pure hs (Nat.le_refl _) _
    · intro s hs hfuel
      unfold Cursor.parsePrefix
      refine (finishes_takeToken hs).bind fun tok s₁ hs₁ h₁ => ?_
      split
      · exact .pure hs₁ h₁ _
      · exact .pure hs₁ h₁ _
      · refine (ih.parse 0 hs₁ (by omega)).bind fun expr s₂ hs₂ h₂ => ?_
        refine (finishes_nextTokenPos hs₂).bind fun _ s₃ hs₃ h₃ => ?_
        exact .pure hs₃ (by omega) _
      · exact (ih.parseSelectStatement hs₁ (by omega)).mono fun s₂ _ h₂ => by omega
      · exact .runtimeError hs₁ _ _
    · intro s left p hs hfuel
      unfold Cursor.parseInfix
      refine (finishes_peekToken hs).bind ?_
      rintro tok _ hs ⟨rfl, hlt⟩
      split
      · refine (finishes_nextTokenPos hs).bind fun _ s₁ hs₁ h₁ => ?_
        have hroom₁ := h₁.2 hlt
        refine (ih.parse p hs₁ (by omega)).bind fun right s₂ hs₂ h₂ => ?_
        exact .pure hs₂ (by omega) _
      · exact .runtimeError hs _ _
    · intro s hs hfuel
      unfold Cursor.parseSelectStatement
      apply Finishes.get_bind
      refine (finishes_tokenAt hs s.position).bind ?_
      rintro _ _ hs ⟨rfl, -⟩
      refine (finishes_populateProjectionList hs (by omega)).bind fun projection s₁ hs₁ h₁ => ?_
      refine (finishes_takeToken hs₁).bind fun tok s₂ hs₂ h₂ => ?_
      split
      · apply Finishes.get_bind
        exact (finishes_tokenAt hs₂ s₂.position).bind fun near s₃ hs₃ _ => .runtimeError hs₃ _ _
      · refine (finishes_takeToken hs₂).bind fun table s₃ hs₃ h₃ => ?_
        refine (finishes_atWhere hs₃).bind ?_
        rintro isWhere _ hs₃ rfl
        split
        · refine (finishes_nextTokenPos hs₃).bind fun _ s₄ hs₄ h₄ => ?_
          refine (ih.parse 0 hs₄ (by omega)).bind fun selection s₅ hs₅ h₅ => ?_
          exact .pure hs₅ (by omega) _
        · exact .pure hs₃ (by omega) _

/-- **Parsing ends.** On any tokens, `parse` returns an expression or throws, and all the while the position
stays between -1 and the number of tokens. -/
theorem parse_ends (tokens : List Token) (precedence : Nat) : ∃ n, ∀ fuel, n ≤ fuel →
    ((∃ expr, (parse fuel precedence (Cursor.new tokens)).1 = .ok expr) ∨
      ∃ e, (parse fuel precedence (Cursor.new tokens)).1 = .error e ∧ e ≠ .diverges) ∧
    ∀ p ∈ (parse fuel precedence (Cursor.new tokens)).2.positions, -1 ≤ p ∧ p ≤ tokens.length := by
  refine ⟨4 * (Cursor.new tokens).room + 4, fun fuel hfuel => ?_⟩
  have hfin := (allFinish tokens fuel).parse precedence (Within.new tokens) hfuel
  rcases h : parse fuel precedence (Cursor.new tokens) with ⟨e | expr, s'⟩
  · obtain ⟨hs', he⟩ := hfin.2 e s' h
    exact ⟨.inr ⟨e, rfl, he⟩, hs'.bounds⟩
  · exact ⟨.inl ⟨expr, rfl⟩, (hfin.1 expr s' h).1.bounds⟩

end Ends

/-! ## The list of remaining tokens -/

section Simulation

variable {α β : Type} {s : Cursor}

/-- The tokens behind the position. -/
def rest (s : Cursor) : List Token := s.tokens.drop (s.position + 1).toNat

/-- What `m` does to the position, `m'` does to the tokens behind it, unless `m` runs out of fuel. -/
def Simulates (m : CursorM α) (m' : ParseM α) (s : Cursor) : Prop :=
  ∀ r s', m s = (r, s') → -1 ≤ s'.position ∧ (r ≠ .error .diverges → m' s.rest = (r, s'.rest))

theorem Simulates.of_eq {m : CursorM α} {m' : ParseM α} {r : Except ParseError α} {s' : Cursor}
    (h : m s = (r, s')) (hs' : -1 ≤ s'.position) (h' : m' s.rest = (r, s'.rest)) : Simulates m m' s := by
  intro r₁ s₁ h₁
  rw [h] at h₁
  cases h₁
  exact ⟨hs', fun _ => h'⟩

theorem Simulates.diverges (hs : -1 ≤ s.position) (m' : ParseM α) :
    Simulates (Prog.fault .diverges) m' s := by
  intro r s' h
  cases h
  exact ⟨hs, fun hr => absurd rfl hr⟩

theorem Simulates.bind {m : CursorM α} {m' : ParseM α} {f : α → CursorM β} {f' : α → ParseM β}
    (hm : Simulates m m' s)
    (hf : ∀ a s', m s = (.ok a, s') → -1 ≤ s'.position → Simulates (f a) (f' a) s') :
    Simulates (m >>= f) (m' >>= f') s := by
  intro r s' h
  rcases h₁ : m s with ⟨e | a, s₁⟩
  · obtain ⟨hs₁, hm'⟩ := hm _ _ h₁
    rw [Prog.bind_error h₁] at h
    cases h
    exact ⟨hs₁, fun he => Prog.bind_error (hm' fun h => he (by cases h; rfl))⟩
  · obtain ⟨hs₁, hm'⟩ := hm _ _ h₁
    rw [Prog.bind_ok h₁] at h
    rw [Prog.bind_ok (hm' (by simp))]
    exact hf a s₁ h₁ hs₁ r s' h

theorem rest_of_token? (hs : -1 ≤ s.position) {t : Token} (h : s.token? (s.position + 1) = some t) :
    s.rest = t :: s.advance.rest := by
  unfold token? at h
  rw [if_neg (by omega)] at h
  obtain ⟨hlt, rfl⟩ := List.getElem?_eq_some_iff.mp h
  have hadv : (s.advance.position + 1).toNat = (s.position + 1).toNat + 1 := by
    unfold advance
    simp only
    omega
  rw [rest, List.drop_eq_getElem_cons hlt, rest, hadv]
  rfl

theorem rest_of_le (h : (s.tokens.length : Int) ≤ s.position + 1) : s.rest = [] := by
  unfold rest
  exact List.drop_eq_nil_of_le (by omega)

theorem token?_of_lt (hs : -1 ≤ s.position) (h : s.position + 1 < s.tokens.length) :
    ∃ t, s.token? (s.position + 1) = some t := by
  unfold token?
  rw [if_neg (by omega)]
  exact ⟨_, List.getElem?_eq_getElem (show (s.position + 1).toNat < s.tokens.length by omega)⟩

theorem Simulates.fault (hs : -1 ≤ s.position) (e : ParseError) :
    Simulates (Prog.fault e : CursorM α) (Prog.fault e) s := .of_eq rfl hs rfl

theorem Simulates.pure (hs : -1 ≤ s.position) (a : α) : Simulates (Pure.pure a) (Pure.pure a) s :=
  .of_eq rfl hs rfl

/-- A look at the cursor. -/
theorem Simulates.look {m : CursorM α} {f : α → CursorM β} {m' : ParseM β} {a : α} (h : m s = (.ok a, s))
    (hf : Simulates (f a) m' s) : Simulates (m >>= f) m' s := by
  intro r s' hr
  rw [Prog.bind_ok h] at hr
  exact hf r s' hr

theorem Simulates.get_bind {f : Cursor → CursorM α} {m' : ParseM α} (h : Simulates (f s) m' s) :
    Simulates (Prog.get >>= f) m' s := h

theorem Simulates.get_bind_right {m : CursorM α} {f' : List Token → ParseM α}
    (h : Simulates m (f' s.rest) s) : Simulates m (Prog.get >>= f') s := h

theorem advance_position_le (hs : -1 ≤ s.position) : -1 ≤ s.advance.position := by
  unfold advance
  simp only
  omega

theorem rest_advance (hs : -1 ≤ s.position) : s.advance.rest = s.rest.tail := by
  by_cases hlt : s.position + 1 < s.tokens.length
  · obtain ⟨t, ht⟩ := token?_of_lt hs hlt
    rw [rest_of_token? hs ht, List.tail_cons]
  · rw [rest_of_le (s := s) (by omega), rest_of_le (by unfold advance; simp only; omega)]
    rfl

theorem simulates_peekToken (hs : -1 ≤ s.position) : Simulates peekToken Parser.peekToken s := by
  unfold peekToken
  apply Simulates.get_bind
  by_cases hlt : s.position + 1 < s.tokens.length
  · obtain ⟨t, ht⟩ := token?_of_lt hs hlt
    rw [peekTokenPos, if_pos hlt]
    exact .of_eq (tokenAt_some ht) hs (by rw [rest_of_token? hs ht]; rfl)
  · have hnone : s.token? (-1) = none := rfl
    rw [peekTokenPos, if_neg hlt]
    exact .of_eq (tokenAt_none hnone) hs (by rw [rest_of_le (by omega)]; rfl)

theorem simulates_takeToken (hs : -1 ≤ s.position) : Simulates takeToken Parser.takeToken s := by
  by_cases hlt : s.position < s.tokens.length
  · have hrun : takeToken s = tokenAt (s.position + 1) s.advance := by
      rw [takeToken, Prog.bind_ok (nextTokenPos_of_lt hlt)]
    cases ht : s.token? (s.position + 1) with
    | some t =>
      have ht' : s.advance.token? (s.position + 1) = some t := ht
      rw [tokenAt_some ht'] at hrun
      exact .of_eq hrun (advance_position_le hs) (by rw [rest_of_token? hs ht]; rfl)
    | none =>
      -- the position goes onto the end
      have ht' : s.advance.token? (s.position + 1) = none := ht
      have hend : s.rest = [] := by
        by_contra hne
        obtain ⟨t, ht₁⟩ := token?_of_lt hs (by
          by_contra hle
          exact hne (rest_of_le (by omega)))
        rw [ht] at ht₁
        cases ht₁
      rw [tokenAt_none ht'] at hrun
      exact .of_eq hrun (advance_position_le hs) (by rw [rest_advance hs, hend]; rfl)
  · have hnone : s.token? (-1) = none := rfl
    exact .of_eq (by rw [takeToken, Prog.bind_ok (nextTokenPos_of_not_lt hlt), tokenAt_none hnone]) hs
      (by rw [rest_of_le (by omega)]; rfl)

theorem Simulates.skip (hs : -1 ≤ s.position) {m : CursorM α} {m' : ParseM α}
    (hm : ∀ s', -1 ≤ s'.position → Simulates m m' s') :
    Simulates (nextTokenPos >>= fun _ => m) (Parser.skipToken >>= fun _ => m') s := by
  have hskip : Parser.skipToken s.rest = (.ok (), s.rest.tail) := rfl
  intro r s' h
  by_cases hlt : s.position < s.tokens.length
  · rw [Prog.bind_ok (nextTokenPos_of_lt hlt)] at h
    rw [Prog.bind_ok hskip, ← rest_advance hs]
    exact hm _ (advance_position_le hs) r s' h
  · rw [Prog.bind_ok (nextTokenPos_of_not_lt hlt)] at h
    have hend : s.rest = [] := rest_of_le (by omega)
    have htail : s.rest.tail = s.rest := by rw [hend]; rfl
    rw [Prog.bind_ok hskip, htail]
    exact hm s hs r s' h

/-- The token that was taken is at the position. -/
theorem token?_of_takeToken {s' : Cursor} {t : Token} (h : takeToken s = (.ok t, s')) :
    s'.token? s'.position = some t := by
  obtain ⟨pos, s₁, h₁, h₂⟩ := Prog.bind_eq_ok h
  have hpos : pos = s₁.position ∨ pos = -1 := by
    by_cases hlt : s.position < s.tokens.length
    · rw [nextTokenPos_of_lt hlt] at h₁
      cases h₁
      exact .inl rfl
    · rw [nextTokenPos_of_not_lt hlt] at h₁
      cases h₁
      exact .inr rfl
  cases ht : s₁.token? pos with
  | none =>
    rw [tokenAt_none ht] at h₂
    cases h₂
  | some u =>
    rw [tokenAt_some ht] at h₂
    cases h₂
    rcases hpos with rfl | rfl
    · exact ht
    · cases ht

theorem nextPrecedence_eq (hs : -1 ≤ s.position) :
    nextPrecedence s = (.ok (Parser.nextPrecedence s.rest), s) := by
  rw [nextPrecedence, Prog.get_bind]
  by_cases hlt : s.position + 1 < s.tokens.length
  · obtain ⟨t, ht⟩ := token?_of_lt hs hlt
    rw [peekTokenPos, if_pos hlt, if_neg (by omega), Prog.bind_ok (tokenAt_some ht), rest_of_token? hs ht]
    rfl
  · rw [peekTokenPos, if_neg hlt, if_pos rfl, rest_of_le (by omega)]
    rfl

theorem atWhere_eq (hs : -1 ≤ s.position) : atWhere s = (.ok (Parser.atWhere s.rest), s) := by
  rw [atWhere, Prog.get_bind]
  by_cases hlt : s.position + 1 < s.tokens.length
  · obtain ⟨t, ht⟩ := token?_of_lt hs hlt
    rw [peekTokenPos, if_pos hlt, if_pos (by omega), Prog.bind_ok (tokenAt_some ht), rest_of_token? hs ht]
    rfl
  · rw [peekTokenPos, if_neg hlt, if_neg (by simp), rest_of_le (by omega)]
    rfl

/-- The loop of `populateProjectionList` in the words of the source. -/
theorem projectionItems_eq : Parser.projectionItems = (do
    let peek ← Parser.peekToken
    if peek.type = .comma then do
      Parser.skipToken
      let item ← Parser.takeToken
      let items ← Parser.projectionItems
      pure (.identifier item.literal :: items)
    else pure [] : ParseM (List SqlExpr)) := by
  funext toks
  match toks with
  | [] => rfl
  | [t] =>
    rw [Parser.projectionItems, Prog.bind_ok (Parser.peekToken_eq_ok.mpr ⟨rfl, _, rfl⟩)]
    split <;> rfl
  | t :: u :: toks =>
    rw [Parser.projectionItems, Prog.bind_ok (Parser.peekToken_eq_ok.mpr ⟨rfl, _, rfl⟩)]
    split
    · have hskip : Parser.skipToken (t :: u :: toks) = (.ok (), u :: toks) := rfl
      rw [Prog.bind_ok hskip, Prog.bind_ok (Parser.takeToken_eq_ok.mpr rfl)]
      rcases h : Parser.projectionItems toks with ⟨e | items, toks'⟩
      · rw [Prog.bind_error h]
      · rw [Prog.bind_ok h]
        rfl
    · rfl

theorem simulates_projectionItems (fuel : Nat) (hs : -1 ≤ s.position) :
    Simulates (projectionItems fuel) Parser.projectionItems s := by
  induction fuel generalizing s with
  | zero => exact .diverges hs _
  | succ fuel ih =>
    rw [projectionItems_eq]
    unfold projectionItems
    refine (simulates_peekToken hs).bind fun peek s₁ _ hs₁ => ?_
    split
    · refine .skip hs₁ fun s₂ hs₂ => ?_
      refine (simulates_takeToken hs₂).bind fun item s₃ _ hs₃ => ?_
      exact (ih hs₃).bind fun items s₄ _ hs₄ => .pure hs₄ _
    · exact .pure hs₁ _

theorem simulates_populateProjectionList (fuel : Nat) (hs : -1 ≤ s.position) :
    Simulates (populateProjectionList fuel) Parser.populateProjectionList s := by
  unfold populateProjectionList Parser.populateProjectionList
  refine (simulates_peekToken hs).bind fun peek s₁ _ hs₁ => ?_
  split
  · exact .fault hs₁ _
  · refine (simulates_takeToken hs₁).bind fun first s₂ _ hs₂ => ?_
    exact (simulates_projectionItems fuel hs₂).bind fun items s₃ _ hs₃ => .pure hs₃ _

/-- The functions over the two states do the same. A statement is parsed behind its keyword. -/
structure AllSimulate (fuel : Nat) : Prop where
  parse : ∀ {s : Cursor} (p : Nat), -1 ≤ s.position → Simulates (parse fuel p) (Parser.parse fuel p) s
  parseWhile : ∀ {s : Cursor} (p : Nat) (expr : SqlExpr), -1 ≤ s.position →
    Simulates (parseWhile fuel p expr) (Parser.parseWhile fuel p expr) s
  parsePrefix : ∀ {s : Cursor}, -1 ≤ s.position → Simulates (parsePrefix fuel) (Parser.parsePrefix fuel) s
  parseInfix : ∀ {s : Cursor} (left : SqlExpr) (p : Nat), -1 ≤ s.position →
    Simulates (parseInfix fuel left p) (Parser.parseInfix fuel left p) s
  parseSelectStatement : ∀ {s : Cursor} {t : Token}, -1 ≤ s.position → s.token? s.position = some t →
    Simulates (parseSelectStatement fuel) (Parser.parseSelectStatement fuel) s

theorem allSimulate (fuel : Nat) : AllSimulate fuel := by
  induction fuel with
  | zero =>
    constructor <;> intros <;> rename_i hs
    · unfold Cursor.parse; exact .diverges hs _
    · unfold Cursor.parseWhile; exact .diverges hs _
    · unfold Cursor.parsePrefix; exact .diverges hs _
    · unfold Cursor.parseInfix; exact .diverges hs _
    · unfold Cursor.parseSelectStatement; exact .diverges (by assumption) _
  | succ fuel ih =>
    constructor
    · intro s p hs
      unfold Cursor.parse Parser.parse
      exact (ih.parsePrefix hs).bind fun expr s₁ _ hs₁ => ih.parseWhile p expr hs₁
    · intro s p expr hs
      unfold Cursor.parseWhile Parser.parseWhile
      refine .look (nextPrecedence_eq hs) (.get_bind_right ?_)
      simp only
      split
      · exact (ih.parseInfix expr _ hs).bind fun expr s₁ _ hs₁ => ih.parseWhile p expr hs₁
      · exact .pure hs _
    · intro s hs
      unfold Cursor.parsePrefix Parser.parsePrefix
      refine (simulates_takeToken hs).bind fun tok s₁ htake hs₁ => ?_
      cases htype : tok.type with
      | identifier | int => exact .pure hs₁ _
      | lparen =>
        exact (ih.parse 0 hs₁).bind fun expr s₂ _ hs₂ => .skip hs₂ fun s₃ hs₃ => .pure hs₃ _
      | keyword => exact ih.parseSelectStatement hs₁ (token?_of_takeToken htake)
      | _ => exact .fault hs₁ _
    · intro s left p hs
      unfold Cursor.parseInfix Parser.parseInfix
      refine (simulates_peekToken hs).bind fun tok s₁ _ hs₁ => ?_
      split
      · refine .skip hs₁ fun s₂ hs₂ => ?_
        exact (ih.parse p hs₂).bind fun right s₃ _ hs₃ => .pure hs₃ _
      · exact .fault hs₁ _
    · intro s t hs ht
      unfold Cursor.parseSelectStatement Parser.parseSelectStatement
      refine .get_bind (.look (tokenAt_some ht) ?_)
      refine (simulates_populateProjectionList fuel hs).bind fun projection s₁ _ hs₁ => ?_
      refine (simulates_takeToken hs₁).bind fun tok s₂ htake hs₂ => ?_
      split
      · exact .get_bind (.look (tokenAt_some (token?_of_takeToken htake)) (.fault hs₂ _))
      · refine (simulates_takeToken hs₂).bind fun table s₃ _ hs₃ => ?_
        refine .look (atWhere_eq hs₃) (.get_bind_right ?_)
        split
        · refine .skip hs₃ fun s₄ hs₄ => ?_
          exact (ih.parse 0 hs₄).bind fun selection s₅ _ hs₅ => .pure hs₅ _
        · exact .pure hs₃ _

/-- With enough fuel, the two parsers return the same and leave the same tokens. -/
theorem parse_of_cursor (tokens : List Token) (precedence : Nat) : ∃ n, ∀ fuel, n ≤ fuel →
    Parser.parse fuel precedence tokens = ((parse fuel precedence (Cursor.new tokens)).1,
      (parse fuel precedence (Cursor.new tokens)).2.rest) := by
  refine ⟨4 * (Cursor.new tokens).room + 4, fun fuel hfuel => ?_⟩
  have hfin := (allFinish tokens fuel).parse precedence (Within.new tokens) hfuel
  have hnew : (Cursor.new tokens).rest = tokens := rfl
  rcases h : parse fuel precedence (Cursor.new tokens) with ⟨r, s'⟩
  obtain ⟨-, hsim⟩ := (allSimulate fuel).parse precedence (Int.le_refl (-1)) r s' h
  rw [hnew] at hsim
  refine hsim ?_
  rintro rfl
  exact (hfin.2 _ _ h).2 rfl

end Simulation

end Cursor

end SomeDB
