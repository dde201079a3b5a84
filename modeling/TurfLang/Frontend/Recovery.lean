import Mathlib.Data.List.ReduceOption
import TurfLang.Frontend.Lookahead

/-!
# `src/frontend/ParserCore.cpp`: `SkipToNextTopLevelBoundary`

What a declaration that fails to parse leaves behind, and where parsing goes on. A token stream is
what the scans of the lexer give, with the lexical errors that are raised among the tokens. The
depths are counted as a token is left; a scan that raises leaves the token that was counted in
`CurTok`, and the next call counts it again.
-/

namespace TurfLang

namespace Recovery

open Lexer

/-! ### The parser on a token stream -/

/-- A `ParserState`, where the stream is what calls of `getNextToken` come to: the tokens that wait in
the lookahead, then what the scans give, `none` for one that raises. Past the end is `TOK_EOF`. -/
structure TokenParser where
  curTok : Token
  braceDepth : ℕ := 0
  curlyDepth : ℕ := 0
  ahead : List (Option Token)
  deriving DecidableEq

/-- What leaving a token does to `BraceDepth`. -/
def bracket (t : Token) (depth : ℕ) : ℕ :=
  if t = .char 123 ∨ t = .char 40 ∨ t = .char 91 then depth + 1
  else if t = .char 125 ∨ t = .char 41 ∨ t = .char 93 then depth - 1
  else depth

/-- What it does to `CurlyDepth`. -/
def curly (t : Token) (depth : ℕ) : ℕ :=
  if t = .char 123 then depth + 1 else if t = .char 125 then depth - 1 else depth

namespace TokenParser

/-- `getNextToken`, and whether it returns. -/
def getNextToken (P : TokenParser) : Bool × TokenParser :=
  let P := { P with
    braceDepth := bracket P.curTok P.braceDepth, curlyDepth := curly P.curTok P.curlyDepth }
  match P.ahead with
  | [] => (true, { P with curTok := .tokEof })
  | some t :: ahead => (true, { P with curTok := t, ahead })
  | none :: ahead => (false, { P with ahead })

/-- `peekToken(N)`, and whether it returns: the scan that raises is over. -/
def peekToken (N : ℕ) (P : TokenParser) : Bool × TokenParser :=
  if none ∈ P.ahead.take (N + 1) then (false, { P with ahead := P.ahead.erase none }) else (true, P)

/-- The parse of a declaration, up to the call that raises or to where it fails after its last: the
tokens it has consumed and the parser it leaves. -/
def attempt : List Call → TokenParser → List Token × TokenParser
  | [], P => ([], P)
  | .next :: calls, P =>
    match P.getNextToken with
    | (true, P') => (P.curTok :: (attempt calls P').1, (attempt calls P').2)
    | (false, P') => ([], P')
  | .peek n :: calls, P =>
    match P.peekToken n with
    | (true, P') => attempt calls P'
    | (false, P') => ([], P')

end TokenParser

/-- `IsTopLevelBoundaryToken`. -/
def isTopLevelBoundaryToken : Token → Bool
  | .tokEof | .char 59 | .tokFn | .tokStruct | .tokEnum | .tokMachine | .tokExtern | .tokExport
  | .tokPub | .tokOperator | .tokError | .tokImport | .tokUnsafe => true
  | _ => false

namespace TokenParser

/-- The condition of the loop. -/
def goesOn (P : TokenParser) : Bool :=
  P.curTok ≠ .tokEof ∧ (0 < P.braceDepth ∨ ¬ isTopLevelBoundaryToken P.curTok)

/-- `SkipToNextTopLevelBoundary`: each round of its loop takes one member of the stream. -/
def skipToNextTopLevelBoundary (P : TokenParser) : TokenParser :=
  let P := { P with braceDepth := P.curlyDepth }
  if P.curTok = .tokEof then P
  else if P.braceDepth = 0 ∧ isTopLevelBoundaryToken P.curTok then P
  else
    { Loop.whileFuel goesOn (fun P => P.getNextToken.2) P.ahead.length P.getNextToken.2 with
      braceDepth := 0, curlyDepth := 0 }

/-- The tokens from the current one on. -/
def tokens (P : TokenParser) : List Token := P.curTok :: P.ahead.reduceOption

section

variable (t u : Token) (b c : ℕ) (ahead : List (Option Token))

@[simp] theorem tokens_mk : tokens ⟨t, b, c, ahead⟩ = t :: ahead.reduceOption := rfl

@[simp] theorem getNextToken_nil :
    getNextToken ⟨t, b, c, []⟩ = (true, ⟨.tokEof, bracket t b, curly t c, []⟩) := rfl

@[simp] theorem getNextToken_some :
    getNextToken ⟨t, b, c, some u :: ahead⟩ = (true, ⟨u, bracket t b, curly t c, ahead⟩) := rfl

@[simp] theorem getNextToken_none :
    getNextToken ⟨t, b, c, none :: ahead⟩ = (false, ⟨t, bracket t b, curly t c, ahead⟩) := rfl

end

end TokenParser

/-! ### Where parsing should go on -/

/-- The braces that some tokens open and do not close. -/
def openBraces (before : List Token) : ℕ := before.foldl (fun depth t => curly t depth) 0

/-- The tokens from the first boundary token on that stands in no brace, where `depth` are open at
first; from the end on, if there is none. -/
def fromBoundary : ℕ → List Token → List Token
  | _, [] => [.tokEof]
  | depth, t :: rest =>
    if t = .tokEof ∨ isTopLevelBoundaryToken t ∧ depth = 0 then t :: rest
    else fromBoundary (curly t depth) rest

/-- The skip goes on at the first boundary token where every brace of the tokens before is closed,
and nothing counts as open there. -/
structure Resyncs (consumed : List Token) (P : TokenParser) : Prop where
  tokens : P.skipToNextTopLevelBoundary.tokens = fromBoundary (openBraces consumed) P.tokens
  braceDepth : P.skipToNextTopLevelBoundary.braceDepth = 0
  curlyDepth : P.skipToNextTopLevelBoundary.curlyDepth = 0

/-- Along the stream, with a current token, a count of brackets and the braces that are open: at every
boundary token up to the first that stands in no brace, no bracket counts as open exactly when no
brace is open. A token before a lexical error is counted twice. -/
def CountsAgree : Token → ℕ → ℕ → List (Option Token) → Prop
  | t, count, depth, [] =>
    t = .tokEof ∨ (isTopLevelBoundaryToken t = true → (count = 0 ↔ depth = 0))
  | t, count, depth, next :: ahead =>
    t = .tokEof ∨ (isTopLevelBoundaryToken t = true → (count = 0 ↔ depth = 0)) ∧
      (isTopLevelBoundaryToken t = true ∧ depth = 0 ∨
        CountsAgree (next.getD t) (bracket t count) (if next = none then depth else curly t depth)
          ahead)

/-! ### The run of the skip -/

namespace TokenParser

/-- The loop of the skip, where its condition is asked before every round. -/
def skipFrom (fuel : ℕ) (P : TokenParser) : TokenParser :=
  Loop.whileFuel goesOn (fun P => P.getNextToken.2) fuel P

theorem skipFrom_stop {fuel : ℕ} {P : TokenParser} (h : P.goesOn = false) : P.skipFrom fuel = P := by
  unfold skipFrom
  cases fuel with
  | zero => rfl
  | succ fuel => rw [Loop.whileFuel, h, if_neg Bool.false_ne_true]

theorem skipFrom_round {fuel : ℕ} {P : TokenParser} (h : P.goesOn = true) :
    P.skipFrom (fuel + 1) = P.getNextToken.2.skipFrom fuel := by
  unfold skipFrom
  rw [Loop.whileFuel, h, if_pos rfl]

/-- The loop takes tokens away. -/
theorem length_tokens_skipFrom (fuel : ℕ) (P : TokenParser) :
    (P.skipFrom fuel).tokens.length ≤ P.tokens.length := by
  refine Loop.whileFuel_induct (P := fun P' : TokenParser => P'.tokens.length ≤ P.tokens.length) ?_ fuel le_rfl
  intro P' _ hP'
  refine le_trans ?_ hP'
  obtain ⟨t, b, c, ahead⟩ := P'
  cases ahead with
  | nil => exact le_rfl
  | cons a ahead =>
    cases a with
    | none => exact le_rfl
    | some u => simp [List.reduceOption_cons_of_some]

end TokenParser

/-- The tokens where parsing should go on are among those from the current one on. -/
theorem length_fromBoundary (depth : ℕ) (t : Token) (rest : List Token) :
    (fromBoundary depth (t :: rest)).length ≤ (t :: rest).length := by
  induction rest generalizing depth t with
  | nil =>
    unfold fromBoundary
    split
    · exact le_rfl
    · exact le_rfl
  | cons u rest ih =>
    unfold fromBoundary
    split
    · exact le_rfl
    · exact (ih _ u).trans (Nat.le_succ _)

/-! ### Where the counts agree -/

theorem bracket_of_boundary {t : Token} (h : isTopLevelBoundaryToken t = true) (depth : ℕ) :
    bracket t depth = depth := by
  unfold bracket
  rw [if_neg, if_neg]
  · rintro (rfl | rfl | rfl) <;> cases h
  · rintro (rfl | rfl | rfl) <;> cases h

section Agree

open TokenParser

variable {t : Token} {b c d fuel : ℕ} {ahead : List (Option Token)}

theorem goesOn_eq_true :
    goesOn ⟨t, b, c, ahead⟩ = true ↔
      t ≠ .tokEof ∧ (isTopLevelBoundaryToken t = true → b ≠ 0) := by
  simp only [goesOn, decide_eq_true_eq, Nat.pos_iff_ne_zero]
  tauto

/-- A boundary token with brackets counted as open is not where the skip ends. -/
theorem tokens_skipFrom_ne (ht : t ≠ .tokEof) (hboundary : isTopLevelBoundaryToken t = true)
    (hb : b ≠ 0) (hfuel : ahead.length < fuel) :
    (skipFrom fuel ⟨t, b, c, ahead⟩).tokens ≠ t :: ahead.reduceOption := by
  have hgo : ∀ (c : ℕ) (ahead : List (Option Token)),
      goesOn ⟨t, b, c, ahead⟩ = true :=
    fun c ahead => goesOn_eq_true.2 ⟨ht, fun _ => hb⟩
  induction ahead generalizing c fuel with
  | nil =>
    obtain ⟨fuel, rfl⟩ := Nat.exists_eq_add_of_lt hfuel
    rw [skipFrom_round (hgo c []), skipFrom_stop (by rfl)]
    intro heq
    rw [getNextToken_nil, tokens_mk, List.cons.injEq] at heq
    exact ht heq.1.symm
  | cons a ahead ih =>
    obtain ⟨fuel, rfl⟩ := Nat.exists_eq_add_of_lt hfuel
    rw [skipFrom_round (hgo c _)]
    cases a with
    | none =>
      rw [getNextToken_none, bracket_of_boundary hboundary]
      exact ih (by simp only [List.length_cons]; omega)
    | some u =>
      intro heq
      have hlen := length_tokens_skipFrom (List.length (some u :: ahead) + fuel)
        (getNextToken ⟨t, b, c, some u :: ahead⟩).2
      rw [heq] at hlen
      simp [List.reduceOption_cons_of_some] at hlen

theorem fromBoundary_here (h : t = .tokEof ∨ isTopLevelBoundaryToken t = true ∧ d = 0)
    (rest : List Token) : fromBoundary d (t :: rest) = t :: rest := by
  rw [fromBoundary, if_pos h]

theorem fromBoundary_later (h : ¬ (t = .tokEof ∨ isTopLevelBoundaryToken t = true ∧ d = 0))
    (rest : List Token) : fromBoundary d (t :: rest) = fromBoundary (curly t d) rest := by
  rw [fromBoundary, if_neg h]

/-- What comes later is not what is here. -/
theorem fromBoundary_ne (ht : t ≠ .tokEof) (rest : List Token) :
    fromBoundary d rest ≠ t :: rest := by
  intro heq
  cases rest with
  | nil =>
    rw [fromBoundary, List.cons.injEq] at heq
    exact ht heq.1.symm
  | cons u rest =>
    have hlen := length_fromBoundary d u rest
    rw [heq] at hlen
    exact absurd hlen (Nat.not_succ_le_self _)

/-- At one token: the counts agree here, and this is the place or `later` is what is left to
prove. -/
theorem tokens_skipFrom_here {p : Prop} (hfuel : ahead.length < fuel) (ht : t ≠ .tokEof)
    (hlater : goesOn ⟨t, b, c, ahead⟩ = true →
      ¬ (t = .tokEof ∨ isTopLevelBoundaryToken t = true ∧ d = 0) →
      ((skipFrom fuel ⟨t, b, c, ahead⟩).tokens = fromBoundary d (t :: ahead.reduceOption) ↔
        p)) :
    (skipFrom fuel ⟨t, b, c, ahead⟩).tokens = fromBoundary d (t :: ahead.reduceOption) ↔
      (isTopLevelBoundaryToken t = true → (b = 0 ↔ d = 0)) ∧
        (isTopLevelBoundaryToken t = true ∧ d = 0 ∨ p) := by
  by_cases hboundary : isTopLevelBoundaryToken t = true
  · by_cases hd : d = 0
    · rw [fromBoundary_here (.inr ⟨hboundary, hd⟩)]
      by_cases hb : b = 0
      · have hstop : goesOn ⟨t, b, c, ahead⟩ = false := by simp [goesOn, hb, hboundary]
        rw [skipFrom_stop hstop]
        simp [hboundary, hd, hb]
      · simp [tokens_skipFrom_ne ht hboundary hb hfuel, hboundary, hd, hb]
    · have hnot : ¬ (t = .tokEof ∨ isTopLevelBoundaryToken t = true ∧ d = 0) := by simp [ht, hd]
      by_cases hb : b = 0
      · have hstop : goesOn ⟨t, b, c, ahead⟩ = false := by simp [goesOn, hb, hboundary]
        rw [skipFrom_stop hstop, fromBoundary_later hnot]
        simp [(fromBoundary_ne ht ahead.reduceOption).symm, hboundary, hd, hb]
      · rw [hlater (goesOn_eq_true.2 ⟨ht, fun _ => hb⟩) hnot]
        simp [hboundary, hd, hb]
  · have hnot : ¬ (t = .tokEof ∨ isTopLevelBoundaryToken t = true ∧ d = 0) := by
      simp [ht, hboundary]
    rw [hlater (goesOn_eq_true.2 ⟨ht, fun h => absurd h hboundary⟩) hnot]
    simp [hboundary]

/-- The skip from a state ends where parsing should go on exactly when the counts agree on the
way. By induction on the stream. -/
theorem tokens_skipFrom_iff (hfuel : ahead.length < fuel) :
    (skipFrom fuel ⟨t, b, c, ahead⟩).tokens = fromBoundary d (t :: ahead.reduceOption) ↔
      CountsAgree t b d ahead := by
  induction ahead generalizing t b c d fuel with
  | nil =>
    obtain ⟨fuel, rfl⟩ := Nat.exists_eq_add_of_lt hfuel
    unfold CountsAgree
    by_cases ht : t = .tokEof
    · have hstop : goesOn ⟨t, b, c, []⟩ = false := by simp [goesOn, ht]
      rw [skipFrom_stop hstop, fromBoundary_here (.inl ht)]
      simp [ht]
    · rw [tokens_skipFrom_here (p := True) hfuel ht]
      · simp [ht]
      · intro hgo hnot
        have hend : goesOn ⟨.tokEof, bracket t b, curly t c, []⟩ = false := by simp [goesOn]
        rw [skipFrom_round hgo, getNextToken_nil, skipFrom_stop hend, fromBoundary_later hnot]
        simp [fromBoundary]
  | cons a ahead ih =>
    obtain ⟨fuel, rfl⟩ := Nat.exists_eq_add_of_lt hfuel
    unfold CountsAgree
    by_cases ht : t = .tokEof
    · have hstop : goesOn ⟨t, b, c, a :: ahead⟩ = false := by simp [goesOn, ht]
      rw [skipFrom_stop hstop, fromBoundary_here (.inl ht)]
      simp [ht]
    · rw [tokens_skipFrom_here hfuel ht, or_iff_right ht]
      intro hgo hnot
      have hfuel' : ahead.length < List.length (a :: ahead) + fuel := by
        rw [List.length_cons]
        omega
      rw [skipFrom_round hgo]
      cases a with
      | none =>
        rw [getNextToken_none, List.reduceOption_cons_of_none, ih hfuel', if_pos rfl]
        rfl
      | some u =>
        rw [getNextToken_some, List.reduceOption_cons_of_some, fromBoundary_later hnot, ih hfuel',
          if_neg (by simp)]
        rfl

/-- The skip, as its loop from the state whose brackets are the braces. -/
theorem tokens_skip (P : TokenParser) :
    P.skipToNextTopLevelBoundary.tokens =
      (skipFrom (P.ahead.length + 1) { P with braceDepth := P.curlyDepth }).tokens := by
  obtain ⟨t, b, c, ahead⟩ := P
  unfold skipToNextTopLevelBoundary
  dsimp only
  by_cases ht : t = .tokEof
  · rw [if_pos ht, skipFrom_stop (by simp [goesOn, ht])]
  rw [if_neg ht]
  by_cases hhere : c = 0 ∧ isTopLevelBoundaryToken t = true
  · rw [if_pos hhere, skipFrom_stop (by simp [goesOn, hhere.1, hhere.2])]
  · rw [if_neg hhere, skipFrom_round]
    · rfl
    · exact goesOn_eq_true.2 ⟨ht, fun hboundary hc => hhere ⟨hc, hboundary⟩⟩

/-- The skip resets the depths, unless it begins at the end of the text. -/
theorem depths_skip (P : TokenParser) :
    (P.skipToNextTopLevelBoundary.braceDepth = 0 ∧ P.skipToNextTopLevelBoundary.curlyDepth = 0) ↔
      (P.curTok = .tokEof → P.curlyDepth = 0) := by
  unfold skipToNextTopLevelBoundary
  dsimp only
  split
  case isTrue ht => simp [ht]
  case isFalse ht =>
    split
    case isTrue hhere => simp [hhere.1]
    case isFalse => simp [ht]

theorem resyncs_iff_countsAgree (consumed : List Token) (P : TokenParser) :
    Resyncs consumed P ↔
      CountsAgree P.curTok P.curlyDepth (openBraces consumed) P.ahead ∧
        (P.curTok = .tokEof → P.curlyDepth = 0) := by
  have hagree : P.skipToNextTopLevelBoundary.tokens = fromBoundary (openBraces consumed) P.tokens ↔
      CountsAgree P.curTok P.curlyDepth (openBraces consumed) P.ahead := by
    rw [tokens_skip]
    exact tokens_skipFrom_iff (Nat.lt_succ_self _)
  rw [← hagree, ← depths_skip]
  constructor
  · rintro ⟨htokens, hbrace, hcurly⟩
    exact ⟨htokens, hbrace, hcurly⟩
  · rintro ⟨htokens, hbrace, hcurly⟩
    exact ⟨htokens, hbrace, hcurly⟩

/-- Whatever a declaration has consumed when it fails: the skip goes on where it should exactly when
the counts agree on the way there, and, at the end of the text, when no brace counts as open. -/
theorem resyncs_iff (t : Token) (scans : List (Option Token)) (calls : List Call) :
    let failed := attempt calls { curTok := t, ahead := scans }
    Resyncs failed.1 failed.2 ↔
      CountsAgree failed.2.curTok failed.2.curlyDepth (openBraces failed.1) failed.2.ahead ∧
        (failed.2.curTok = .tokEof → failed.2.curlyDepth = 0) :=
  resyncs_iff_countsAgree _ _

/-- `fn f() { 0x } fn g() { }`: the scan after the first brace raises, and the brace is counted again
by the skip, which passes over `g` to the end. -/
theorem not_resyncs_lexical_error :
    let failed := attempt (List.replicate 5 .next)
      { curTok := .tokFn
        ahead := [some .tokIdentifier, some (.char 40), some (.char 41), some (.char 123), none,
          some (.char 125), some .tokFn, some .tokIdentifier, some (.char 40), some (.char 41),
          some (.char 123), some (.char 125)] }
    failed.2.skipToNextTopLevelBoundary.tokens = [.tokEof] ∧
      fromBoundary (openBraces failed.1) failed.2.tokens =
        [.tokFn, .tokIdentifier, .char 40, .char 41, .char 123, .char 125] ∧
      ¬ Resyncs failed.1 failed.2 := by
  have hskip : (attempt (List.replicate 5 .next)
      { curTok := .tokFn
        ahead := [some .tokIdentifier, some (.char 40), some (.char 41), some (.char 123), none,
          some (.char 125), some .tokFn, some .tokIdentifier, some (.char 40), some (.char 41),
          some (.char 123), some (.char 125)] }).2.skipToNextTopLevelBoundary.tokens =
        [.tokEof] := by decide
  intro failed
  have hshould : fromBoundary (openBraces failed.1) failed.2.tokens =
      [.tokFn, .tokIdentifier, .char 40, .char 41, .char 123, .char 125] := by decide
  refine ⟨hskip, hshould, fun h => ?_⟩
  have htokens := h.tokens
  rw [hshould] at htokens
  exact absurd (hskip.symm.trans htokens) (by decide)

/-! ### Text with braces only -/

/-- Without lexical errors the braces are counted as they are. -/
theorem curlyDepth_attempt (calls : List Call) (P : TokenParser) (h : none ∉ P.ahead) :
    (attempt calls P).2.curlyDepth =
        (attempt calls P).1.foldl (fun depth t => curly t depth) P.curlyDepth ∧
      none ∉ (attempt calls P).2.ahead := by
  induction calls generalizing P with
  | nil => exact ⟨rfl, h⟩
  | cons call calls ih =>
    obtain ⟨t, b, c, ahead⟩ := P
    cases call with
    | next =>
      cases ahead with
      | nil => exact ih _ h
      | cons a ahead =>
        cases a with
        | none => exact absurd (List.mem_cons_self) h
        | some u => exact ih ⟨u, bracket t b, curly t c, ahead⟩ fun hmem => h (by simp [hmem])
    | peek n =>
      have hno : none ∉ ahead.take (n + 1) := fun hmem => h (List.mem_of_mem_take hmem)
      have hpeek : TokenParser.peekToken n ⟨t, b, c, ahead⟩ = (true, ⟨t, b, c, ahead⟩) := by
        simp [TokenParser.peekToken, hno]
      unfold attempt
      rw [hpeek]
      exact ih _ h

theorem countsAgree_of_braces (h : none ∉ ahead)
    (hround : ∀ u ∈ t :: ahead.reduceOption, bracket u = curly u) : CountsAgree t d d ahead := by
  induction ahead generalizing t d with
  | nil => exact .inr fun _ => Iff.rfl
  | cons a ahead ih =>
    cases a with
    | none => exact absurd (List.mem_cons_self) h
    | some u =>
      rw [List.reduceOption_cons_of_some] at hround
      unfold CountsAgree
      rw [hround t (by simp), if_neg (by simp)]
      refine .inr ⟨fun _ => Iff.rfl, .inr (ih (fun hmem => h (by simp [hmem])) ?_)⟩
      exact fun v hv => hround v (List.mem_cons_of_mem _ hv)

/-- Without lexical errors, and where only braces follow, parsing goes on where it should. -/
theorem resyncs_of_braces (t : Token) (scans : List (Option Token)) (calls : List Call)
    (hscans : none ∉ scans)
    (hround : ∀ u ∈ (attempt calls { curTok := t, ahead := scans }).2.tokens, bracket u = curly u)
    (hend : (attempt calls { curTok := t, ahead := scans }).2.curTok = .tokEof →
      openBraces (attempt calls { curTok := t, ahead := scans }).1 = 0) :
    Resyncs (attempt calls { curTok := t, ahead := scans }).1
      (attempt calls { curTok := t, ahead := scans }).2 := by
  obtain ⟨hcurly, hahead⟩ := curlyDepth_attempt calls { curTok := t, ahead := scans } hscans
  have hopen : (attempt calls { curTok := t, ahead := scans }).2.curlyDepth =
      openBraces (attempt calls { curTok := t, ahead := scans }).1 := hcurly
  refine (resyncs_iff_countsAgree _ _).2 ⟨?_, fun heof => ?_⟩
  · rw [hopen]
    exact countsAgree_of_braces hahead hround
  · rw [hopen]
    exact hend heof

end Agree

/-! ### The stream of a text -/

/-- The parser of a text and a stream that is what its scans give from the `i`th on. -/
structure Shows (L₀ : LexerState) (i : ℕ) (P : ParserState) (Q : TokenParser) : Prop where
  inStep : InStep L₀ i P.reader
  curTok : Q.curTok = P.curTok
  braceDepth : Q.braceDepth = P.braceDepth
  curlyDepth : Q.curlyDepth = P.curlyDepth
  ahead : ∀ k, (Q.ahead[k]?).getD (some .tokEof) = (tokenAt L₀ (i + k)).map LexedToken.tok

section Shows

variable {L₀ : LexerState} {i : ℕ} {P P' : ParserState} {Q : TokenParser}

theorem getNextToken_ok {tok : Token} (h : getNextToken P = .ok tok P') :
    P'.curTok = tok ∧ P'.braceDepth = (leaveToken P).braceDepth ∧
      P'.curlyDepth = (leaveToken P).curlyDepth := by
  unfold getNextToken at h
  dsimp only at h
  split at h
  · cases h
    exact ⟨rfl, rfl, rfl⟩
  · split at h
    · cases h
      exact ⟨rfl, rfl, rfl⟩
    · cases h

theorem getNextToken_error {e : LexError} (h : getNextToken P = .error e P') :
    P'.curTok = P.curTok ∧ P'.braceDepth = (leaveToken P).braceDepth ∧
      P'.curlyDepth = (leaveToken P).curlyDepth := by
  unfold getNextToken at h
  dsimp only at h
  split at h
  · cases h
  · split at h
    · cases h
    · cases h
      exact ⟨rfl, rfl, rfl⟩

/-- A call of `getNextToken` on the text is one on the stream. -/
theorem Shows.getNextToken (h : Shows L₀ i P Q) :
    ∃ P', (if Q.getNextToken.1 then ∃ tok, Lexer.getNextToken P = .ok tok P'
        else ∃ e, Lexer.getNextToken P = .error e P') ∧ Shows L₀ (i + 1) P' Q.getNextToken.2 := by
  have hfirst := h.ahead 0
  have hlater : ∀ k, (Q.ahead[k + 1]?).getD (some .tokEof) =
      (tokenAt L₀ (i + 1 + k)).map LexedToken.tok := by
    intro k
    rw [h.ahead (k + 1), Nat.add_right_comm, Nat.add_assoc]
  obtain ⟨t, b, c, ahead⟩ := Q
  obtain ⟨hstep₀, rfl, rfl, rfl, -⟩ := h
  rw [Nat.add_zero] at hfirst
  obtain ⟨tok, P', hok, hstep, -, htoken⟩ | ⟨e, P', herr, hstep, htoken⟩ :=
    getNextToken_spec hstep₀
  · obtain ⟨hcur, hbrace, hcurly⟩ := getNextToken_ok hok
    rw [htoken, Option.map_some] at hfirst
    refine ⟨P', ?_⟩
    cases ahead with
    | nil =>
      injection hfirst with heof
      exact ⟨by rw [TokenParser.getNextToken_nil]; exact ⟨_, hok⟩,
        ⟨hstep, by rw [hcur, ← heof]; rfl, hbrace.symm, hcurly.symm, hlater⟩⟩
    | cons a ahead =>
      obtain rfl : a = some tok.tok := hfirst
      exact ⟨by rw [TokenParser.getNextToken_some]; exact ⟨_, hok⟩,
        ⟨hstep, hcur.symm, hbrace.symm, hcurly.symm, hlater⟩⟩
  · obtain ⟨hcur, hbrace, hcurly⟩ := getNextToken_error herr
    rw [htoken, Option.map_none] at hfirst
    refine ⟨P', ?_⟩
    cases ahead with
    | nil => cases hfirst
    | cons a ahead =>
      obtain rfl : a = none := hfirst
      exact ⟨by rw [TokenParser.getNextToken_none]; exact ⟨_, herr⟩,
        ⟨hstep, hcur.symm, hbrace.symm, hcurly.symm, hlater⟩⟩

end Shows

end Recovery

end TurfLang
