import TurfLang.Frontend.Lexer

/-!
# `src/frontend/Lexer.cpp`, `ParserCore.cpp`: tokens read ahead

`peekToken` scans past the current token and keeps what it finds in a queue, each token with all
the fields that describe it; `getNextToken` hands the queue out before it scans on. Against this
stands the lexer that is only ever scanned: the `k`-th token of a text is what its `k`-th scan
leaves. While no scan that reads ahead raises, the parser cannot tell the two apart.
-/

namespace TurfLang

namespace Lexer

/-- A `LexerState` with its `Lookahead`. -/
structure TokenReader where
  lexer : LexerState
  lookahead : List LexedToken := []
  deriving DecidableEq

def captureToken (L : LexerState) (tok : Token) : LexedToken :=
  { tok
    identifierStr := L.identifierStr
    stringVal := L.stringVal
    numLitSpelling := L.numLitSpelling
    numLitClean := L.numLitClean
    numLitRadix := L.numLitRadix
    boolVal := L.boolVal
    charVal := L.charVal
    loc := L.curLoc
    prevTokEndLine := L.prevTokEndLine
    prevTokEndCol := L.prevTokEndCol }

def installToken (L : LexerState) (t : LexedToken) : LexerState :=
  { L with
    identifierStr := t.identifierStr
    stringVal := t.stringVal
    numLitSpelling := t.numLitSpelling
    numLitClean := t.numLitClean
    numLitRadix := t.numLitRadix
    boolVal := t.boolVal
    charVal := t.charVal
    curLoc := t.loc
    prevTokEndLine := t.prevTokEndLine
    prevTokEndCol := t.prevTokEndCol }

@[simp] theorem installToken_captureToken (L : LexerState) (tok : Token) :
    installToken L (captureToken L tok) = L := rfl

@[simp] theorem installToken_installToken (L : LexerState) (t u : LexedToken) :
    installToken (installToken L t) u = installToken L u := rfl

@[simp] theorem captureToken_installToken (L : LexerState) (t : LexedToken) :
    captureToken (installToken L t) t.tok = t := rfl

/-- The loop of `peekToken`: `count` tokens more. -/
def fillLookahead : ℕ → TokenReader → EStateM.Result LexError TokenReader Unit
  | 0, R => .ok () R
  | count + 1, R =>
    match gettok R.lexer with
    | .ok tok L => fillLookahead count ⟨L, R.lookahead ++ [captureToken L tok]⟩
    | .error e L => .error e ⟨L, R.lookahead⟩

/-- The lexer with the last token of the queue installed, if there is one. -/
def installLast (R : TokenReader) : LexerState :=
  match R.lookahead.getLast? with
  | some t => installToken R.lexer t
  | none => R.lexer

/-- `peekToken(N)`; past the queue stands a token that the loop has always put there. -/
def peekToken (N : ℕ) (R : TokenReader) : EStateM.Result LexError TokenReader Token :=
  match R.lookahead[N]? with
  | some t => .ok t.tok R
  | none =>
    let current := captureToken R.lexer (.char 0)
    match fillLookahead (N + 1 - R.lookahead.length) ⟨installLast R, R.lookahead⟩ with
    | .ok _ R =>
      .ok ((R.lookahead[N]?.map LexedToken.tok).getD .tokEof)
        { R with lexer := installToken R.lexer current }
    | .error e R => .error e R

/-- `takeLookaheadToken`. -/
def takeLookaheadToken (R : TokenReader) : Option (Token × TokenReader) :=
  match R.lookahead with
  | [] => none
  | t :: rest => some (t.tok, ⟨installToken R.lexer t, rest⟩)

/-- The members of `ParserState` that reading a token touches, and its lexer. -/
structure ParserState where
  curTok : Token := .char 0
  braceDepth : ℕ := 0
  curlyDepth : ℕ := 0
  reader : TokenReader
  deriving DecidableEq

/-- What `getNextToken` does with the depths before it leaves `CurTok`. -/
def leaveToken (P : ParserState) : ParserState :=
  { P with
    braceDepth :=
      if P.curTok = .char 123 ∨ P.curTok = .char 40 ∨ P.curTok = .char 91 then P.braceDepth + 1
      else if P.curTok = .char 125 ∨ P.curTok = .char 41 ∨ P.curTok = .char 93 then
        P.braceDepth - 1
      else P.braceDepth
    curlyDepth :=
      if P.curTok = .char 123 then P.curlyDepth + 1
      else if P.curTok = .char 125 then P.curlyDepth - 1
      else P.curlyDepth }

/-- `getNextToken`. -/
def getNextToken (P : ParserState) : EStateM.Result LexError ParserState Token :=
  let P := leaveToken P
  match takeLookaheadToken P.reader with
  | some (tok, R) => .ok tok { P with curTok := tok, reader := R }
  | none =>
    match gettok P.reader.lexer with
    | .ok tok L => .ok tok { P with curTok := tok, reader := ⟨L, []⟩ }
    | .error e L => .error e { P with reader := ⟨L, []⟩ }

@[simp] theorem leaveToken_reader (P : ParserState) : (leaveToken P).reader = P.reader := rfl

/-! ### The parser as a client -/

/-- What the parser asks for. -/
inductive Call
  | next
  | peek (n : ℕ)
  deriving DecidableEq

/-- The parser's state, the tokens delivered to it so far, each with the fields it then finds, and
the answers it got to `peekToken`: which of the tokens delivered was asked for, and the kind
told. Also the number of calls of `peekToken` that raised. -/
structure Session where
  parser : ParserState
  delivered : List LexedToken := []
  answers : List (ℕ × Token) := []
  raised : ℕ := 0

/-- One call, where a lexical error is caught. -/
def Session.call (S : Session) : Call → Session
  | .next =>
    match getNextToken S.parser with
    | .ok tok P =>
      { S with parser := P, delivered := S.delivered ++ [captureToken P.reader.lexer tok] }
    | .error _ P => { S with parser := P }
  | .peek n =>
    match peekToken n S.parser.reader with
    | .ok tok R =>
      { S with
        parser := { S.parser with reader := R }
        answers := S.answers ++ [(S.delivered.length + n, tok)] }
    | .error _ R => { S with parser := { S.parser with reader := R }, raised := S.raised + 1 }

/-- The parser before it asks for the first token of a text. -/
def Session.start (text : Bytes) (filename : String) : Session :=
  { parser := { reader := { lexer := openLexer text filename } } }

/-- The calls on a text from its start. -/
def session (text : Bytes) (filename : String) (calls : List Call) : Session :=
  calls.foldl Session.call (.start text filename)

/-! ### Where reading ahead goes wrong -/

/-- The scan from here raises. -/
def raises (L : LexerState) : Bool :=
  match gettok L with
  | .ok _ _ => false
  | .error _ _ => true

/-- The lexer after a scan, whether it raised or not. -/
def after (L : LexerState) : LexerState :=
  match gettok L with
  | .ok _ L => L
  | .error _ L => L

/-- `peekToken(n)` comes to a malformed number, and a token before that is waiting already. -/
def PeekRaises (n : ℕ) (R : TokenReader) : Prop :=
  ∃ m < n + 1 - R.lookahead.length, (∀ k < m, raises (after^[k] (installLast R)) = false) ∧
    raises (after^[m] (installLast R)) = true ∧ 0 < R.lookahead.length + m

instance (n : ℕ) (R : TokenReader) : Decidable (PeekRaises n R) := by
  unfold PeekRaises
  infer_instance

/-- No call of the run reads ahead to a malformed number past a token that waits. -/
def SafeRun : Session → List Call → Prop
  | _, [] => True
  | S, .next :: calls => SafeRun (S.call .next) calls
  | S, .peek n :: calls => ¬ PeekRaises n S.parser.reader ∧ SafeRun (S.call (.peek n)) calls

/-! ### The lexer that is only scanned -/

section Scanned

variable (L₀ : LexerState)

/-- The lexer after `k` scans. -/
def scanned (k : ℕ) : LexerState := after^[k] L₀

theorem scanned_succ (k : ℕ) : scanned L₀ (k + 1) = after (scanned L₀ k) :=
  Function.iterate_succ_apply' after k L₀

/-- The token that scan `k` returns. -/
def tokenAt (k : ℕ) : Option LexedToken :=
  match gettok (scanned L₀ k) with
  | .ok tok L => some (captureToken L tok)
  | .error _ _ => none

/-- The tokens of the first `k` scans. -/
def tokensOf (k : ℕ) : List LexedToken := (List.range k).filterMap (tokenAt L₀)

variable {L₀}

theorem tokensOf_succ (k : ℕ) : tokensOf L₀ (k + 1) = tokensOf L₀ k ++ (tokenAt L₀ k).toList := by
  rw [tokensOf, List.range_succ, List.filterMap_append]
  cases h : tokenAt L₀ k <;> simp [tokensOf, h]

theorem tokensOf_prefix {k k' : ℕ} (h : k ≤ k') : tokensOf L₀ k <+: tokensOf L₀ k' := by
  obtain ⟨d, rfl⟩ := Nat.exists_eq_add_of_le h
  induction d with
  | zero => exact List.prefix_refl _
  | succ d ih =>
    rw [← Nat.add_assoc, tokensOf_succ]
    exact (ih (by omega)).trans (List.prefix_append _ _)

/-- Two of these lists agree wherever both have a token. -/
theorem tokensOf_agree {k k' i : ℕ} {t u : LexedToken} (ht : (tokensOf L₀ k)[i]? = some t)
    (hu : (tokensOf L₀ k')[i]? = some u) : t = u := by
  have hmax : ∀ {m v}, m ≤ k ⊔ k' → (tokensOf L₀ m)[i]? = some v →
      (tokensOf L₀ (k ⊔ k'))[i]? = some v := by
    intro m v hm hv
    obtain ⟨l, hl⟩ : tokensOf L₀ m <+: tokensOf L₀ (k ⊔ k') := tokensOf_prefix hm
    rw [← hl, List.getElem?_append_left (List.getElem?_eq_some_iff.1 hv).1, hv]
  have heq := (hmax le_sup_left ht).symm.trans (hmax le_sup_right hu)
  injection heq

theorem gettok_of_tokenAt {k : ℕ} {t : LexedToken} (h : tokenAt L₀ k = some t) :
    gettok (scanned L₀ k) = .ok t.tok (scanned L₀ (k + 1)) ∧
      t = captureToken (scanned L₀ (k + 1)) t.tok := by
  rw [scanned_succ, after]
  unfold tokenAt at h
  split at h
  case h_1 tok L heq =>
    injection h with h
    subst h
    rw [heq]
    exact ⟨rfl, rfl⟩
  case h_2 => cases h

theorem gettok_of_raises {k : ℕ} (h : raises (scanned L₀ k) = true) :
    tokenAt L₀ k = none ∧ ∃ e, gettok (scanned L₀ k) = .error e (scanned L₀ (k + 1)) := by
  rw [scanned_succ, after, tokenAt]
  unfold raises at h
  split at h
  case h_1 => cases h
  case h_2 e L heq =>
    rw [heq]
    exact ⟨rfl, e, rfl⟩

theorem tokenAt_of_not_raises {k : ℕ} (h : raises (scanned L₀ k) = false) :
    ∃ t, tokenAt L₀ k = some t := by
  unfold raises at h
  unfold tokenAt
  split at h
  case h_1 tok L _ => exact ⟨captureToken L tok, rfl⟩
  case h_2 => cases h

end Scanned

/-! ### The reader keeps step with the scans -/

variable {L₀ : LexerState} {i : ℕ} {R : TokenReader}

/-- The queue of `R` holds the tokens of the scans from `i` on. -/
def Queued (L₀ : LexerState) (i : ℕ) (R : TokenReader) : Prop :=
  ∀ k < R.lookahead.length, R.lookahead[k]? = tokenAt L₀ (i + k)

/-- After `i` scans, seen from the parser: the fields of the current token are those that scan left,
and what is read has come as far as the queue. -/
structure InStep (L₀ : LexerState) (i : ℕ) (R : TokenReader) : Prop where
  queued : Queued L₀ i R
  lexer : ∃ tok, R.lexer =
    installToken (scanned L₀ (i + R.lookahead.length)) (captureToken (scanned L₀ i) tok)

theorem InStep.of_empty (L₀ : LexerState) (i : ℕ) : InStep L₀ i ⟨scanned L₀ i, []⟩ where
  queued := by simp [Queued]
  lexer := ⟨.char 0, rfl⟩

/-- With no token waiting the reader is the lexer. -/
theorem InStep.lexer_of_empty (h : InStep L₀ i R) (hq : R.lookahead = []) :
    R.lexer = scanned L₀ i := by
  obtain ⟨tok, hlex⟩ := h.lexer
  rw [hlex, hq]
  rfl

/-- What is scanned next is what the lexer would scan next. -/
theorem InStep.installLast_eq (h : InStep L₀ i R) :
    installLast R = scanned L₀ (i + R.lookahead.length) := by
  unfold installLast
  split
  case h_1 t hlast =>
    have hlen : R.lookahead ≠ [] := by
      rintro hnil
      simp [hnil] at hlast
    have hpos : 0 < R.lookahead.length := List.length_pos_iff.2 hlen
    rw [List.getLast?_eq_getElem?, h.queued _ (by omega)] at hlast
    obtain ⟨tok, hlex⟩ := h.lexer
    obtain ⟨-, ht⟩ := gettok_of_tokenAt hlast
    have hi : i + (R.lookahead.length - 1) + 1 = i + R.lookahead.length := by omega
    rw [hi] at ht
    rw [hlex, ht, installToken_installToken, installToken_captureToken]
  case h_2 hlast =>
    have hnil : R.lookahead = [] := by simpa using hlast
    rw [h.lexer_of_empty hnil, hnil]
    rfl

/-- The loop of `peekToken` queues the tokens of the scans it makes, up to the first that
raises. -/
theorem fillLookahead_spec (count : ℕ) (hq : Queued L₀ i R)
    (hlex : R.lexer = scanned L₀ (i + R.lookahead.length)) :
    (∃ R', fillLookahead count R = .ok () R' ∧ R'.lookahead.length = R.lookahead.length + count ∧
        Queued L₀ i R' ∧ R'.lexer = scanned L₀ (i + R'.lookahead.length)) ∨
      ∃ e R', fillLookahead count R = .error e R' ∧
        ∃ m < count, (∀ k < m, raises (after^[k] R.lexer) = false) ∧
          raises (after^[m] R.lexer) = true ∧
          (R.lookahead.length + m = 0 → R' = ⟨after R.lexer, []⟩) := by
  induction count generalizing R with
  | zero => exact .inl ⟨R, rfl, rfl, hq, hlex⟩
  | succ count ih =>
    cases hr : raises R.lexer with
    | true =>
      obtain ⟨-, e, hget⟩ := gettok_of_raises (by rwa [hlex] at hr)
      rw [← hlex] at hget
      refine .inr ⟨e, ⟨after R.lexer, R.lookahead⟩, ?_, 0, by omega, by simp, hr, ?_⟩
      · simp only [fillLookahead, after, hget]
      · intro h0
        rw [List.length_eq_zero_iff.1 h0]
    | false =>
      obtain ⟨t, ht⟩ := tokenAt_of_not_raises (by rwa [hlex] at hr)
      obtain ⟨hget, hcap⟩ := gettok_of_tokenAt ht
      rw [← hlex] at hget
      have hnext : after R.lexer = scanned L₀ (i + R.lookahead.length + 1) := by
        rw [scanned_succ, hlex]
      have hstep : fillLookahead (count + 1) R =
          fillLookahead count ⟨after R.lexer, R.lookahead ++ [t]⟩ := by
        simp only [fillLookahead, hget, hnext, ← hcap]
      have hq' : Queued L₀ i ⟨after R.lexer, R.lookahead ++ [t]⟩ := by
        intro k hk
        simp only [List.length_append, List.length_singleton] at hk
        rcases Nat.lt_succ_iff_lt_or_eq.1 hk with hlt | rfl
        · rw [List.getElem?_append_left hlt, hq k hlt]
        · simp [ht]
      obtain ⟨R', hok, hlen, hqR, hlR⟩ | ⟨e, R', herr, m, hm, hbefore, hraise, -⟩ :=
        ih hq' (by simpa [Nat.add_assoc] using hnext)
      · refine .inl ⟨R', hstep.trans hok, ?_, hqR, hlR⟩
        simp only [List.length_append, List.length_singleton] at hlen
        omega
      · refine .inr ⟨e, R', hstep.trans herr, m + 1, by omega, ?_, hraise, by omega⟩
        intro k hk
        cases k with
        | zero => exact hr
        | succ k => exact hbefore k (by omega)

/-- What `peekToken` does to a reader in step: it tells the kind of a later token, or it raises
what the next scan would raise, and is then past it. -/
theorem peekToken_spec (h : InStep L₀ i R) {n : ℕ} (hsafe : ¬ PeekRaises n R) :
    (∃ t R', peekToken n R = .ok t.tok R' ∧ InStep L₀ i R' ∧
        (∀ k ≤ n, ∃ u, tokenAt L₀ (i + k) = some u) ∧ tokenAt L₀ (i + n) = some t) ∨
      ∃ e R', peekToken n R = .error e R' ∧ InStep L₀ (i + 1) R' ∧ tokenAt L₀ i = none := by
  unfold peekToken
  split
  case h_1 t hget =>
    have hlt : n < R.lookahead.length := (List.getElem?_eq_some_iff.1 hget).1
    refine .inl ⟨t, R, rfl, h, fun k hk => ?_, by rw [← h.queued n hlt, hget]⟩
    exact ⟨_, by rw [← h.queued k (by omega), List.getElem?_eq_getElem (by omega)]⟩
  case h_2 hget =>
    have hle : R.lookahead.length ≤ n := List.getElem?_eq_none_iff.1 hget
    have hlast := h.installLast_eq
    obtain ⟨R', hok, hlen, hq, hlex⟩ | ⟨e, R', herr, m, hm, hbefore, hraise, hempty⟩ :=
      fillLookahead_spec (n + 1 - R.lookahead.length)
        (R := ⟨installLast R, R.lookahead⟩) h.queued hlast
    · simp only at hlen
      have hall : ∀ k ≤ n, R'.lookahead[k]? = tokenAt L₀ (i + k) := fun k hk => hq k (by omega)
      have hsome : ∀ k ≤ n, ∃ u, tokenAt L₀ (i + k) = some u := by
        intro k hk
        exact ⟨_, by rw [← hall k hk, List.getElem?_eq_getElem (by omega)]⟩
      obtain ⟨t, ht⟩ := hsome n le_rfl
      refine .inl ⟨t, ⟨installToken R'.lexer (captureToken R.lexer (.char 0)), R'.lookahead⟩, ?_,
        ⟨hq, .char 0, ?_⟩, hsome, ht⟩
      · simp only [hok, hall n le_rfl, ht, Option.map_some, Option.getD_some]
      · obtain ⟨tok, htok⟩ := h.lexer
        simp only [hlex, htok]
        rfl
    · have h0 : R.lookahead.length + m = 0 := by
        by_contra hpos
        exact hsafe ⟨m, hm, hbefore, hraise, by omega⟩
      have hm0 : m = 0 := by omega
      have hnil : R.lookahead = [] := List.length_eq_zero_iff.1 (by omega)
      subst hm0
      have hraise' : raises (scanned L₀ i) = true := by
        have hlast' := hlast
        rw [hnil, List.length_nil, Nat.add_zero] at hlast'
        rw [← hlast']
        exact hraise
      refine .inr ⟨e, R', by simp only [herr], ?_, (gettok_of_raises hraise').1⟩
      have hR := hempty h0
      rw [hlast, hnil, List.length_nil, Nat.add_zero, ← scanned_succ] at hR
      rw [hR]
      exact .of_empty L₀ (i + 1)

/-- `getNextToken` delivers the token of the next scan, or raises what it raises. -/
theorem getNextToken_spec {P : ParserState} (h : InStep L₀ i P.reader) :
    (∃ t P', getNextToken P = .ok t.tok P' ∧ InStep L₀ (i + 1) P'.reader ∧
        captureToken P'.reader.lexer t.tok = t ∧ tokenAt L₀ i = some t) ∨
      ∃ e P', getNextToken P = .error e P' ∧ InStep L₀ (i + 1) P'.reader ∧
        tokenAt L₀ i = none := by
  cases hq : P.reader.lookahead with
  | cons t rest =>
    have ht : tokenAt L₀ i = some t := by
      have h0 := h.queued 0 (by simp [hq])
      rw [hq] at h0
      exact h0.symm
    obtain ⟨-, hcap⟩ := gettok_of_tokenAt ht
    refine .inl ⟨t, { leaveToken P with
      curTok := t.tok, reader := ⟨installToken P.reader.lexer t, rest⟩ }, ?_, ⟨?_, t.tok, ?_⟩, ?_, ht⟩
    · simp only [getNextToken, leaveToken_reader, takeLookaheadToken, hq]
    · intro k hk
      have hk' := h.queued (k + 1) (by simp only [hq, List.length_cons]; exact Nat.succ_lt_succ hk)
      rw [hq, List.getElem?_cons_succ] at hk'
      rw [hk']
      congr 1
      omega
    · obtain ⟨tok, hlex⟩ := h.lexer
      have hlen : i + P.reader.lookahead.length = i + 1 + rest.length := by
        rw [hq, List.length_cons]
        omega
      simp only [hlex, hlen, installToken_installToken, ← hcap]
    · exact captureToken_installToken _ _
  | nil =>
    have hlex := h.lexer_of_empty hq
    have htake : takeLookaheadToken P.reader = none := by simp [takeLookaheadToken, hq]
    cases hr : raises (scanned L₀ i) with
    | false =>
      obtain ⟨t, ht⟩ := tokenAt_of_not_raises hr
      obtain ⟨hget, hcap⟩ := gettok_of_tokenAt ht
      refine .inl ⟨t, { leaveToken P with curTok := t.tok, reader := ⟨scanned L₀ (i + 1), []⟩ }, ?_,
        .of_empty L₀ (i + 1), hcap.symm, ht⟩
      simp only [getNextToken, leaveToken_reader, htake, hlex, hget]
    | true =>
      obtain ⟨hnone, e, hget⟩ := gettok_of_raises hr
      refine .inr ⟨e, { leaveToken P with reader := ⟨scanned L₀ (i + 1), []⟩ }, ?_,
        .of_empty L₀ (i + 1), hnone⟩
      simp only [getNextToken, leaveToken_reader, htake, hlex, hget]

/-! ### Whole runs -/

/-- What holds of a session after `i` scans of its text, as the parser sees it. -/
structure Session.Follows (L₀ : LexerState) (i : ℕ) (S : Session) : Prop where
  inStep : InStep L₀ i S.parser.reader
  delivered : S.delivered = tokensOf L₀ i
  answers : ∀ a ∈ S.answers, ∃ k t, (tokensOf L₀ k)[a.1]? = some t ∧ t.tok = a.2

/-- The tokens that `k` scans in a row return come one after the other. -/
theorem tokensOf_add {n : ℕ} (h : ∀ k ≤ n, ∃ u, tokenAt L₀ (i + k) = some u) :
    (tokensOf L₀ (i + n + 1))[(tokensOf L₀ i).length + n]? = tokenAt L₀ (i + n) := by
  have hlen : ∀ m ≤ n + 1, (tokensOf L₀ (i + m)).length = (tokensOf L₀ i).length + m := by
    intro m hm
    induction m with
    | zero => rfl
    | succ m ih =>
      obtain ⟨u, hu⟩ := h m (by omega)
      rw [← Nat.add_assoc, tokensOf_succ, hu, List.length_append, ih (by omega)]
      rfl
  obtain ⟨u, hu⟩ := h n le_rfl
  rw [tokensOf_succ, hu, ← hlen n (by omega)]
  simp

theorem Session.Follows.next {S : Session} (h : S.Follows L₀ i) :
    (S.call .next).Follows L₀ (i + 1) ∧ (S.call .next).raised = S.raised := by
  obtain ⟨t, P, hok, hstep, hcap, ht⟩ | ⟨e, P, herr, hstep, hnone⟩ := getNextToken_spec h.inStep
  · have hcall : S.call .next = { S with parser := P, delivered := S.delivered ++ [t] } := by
      simp only [Session.call, hok, hcap]
    rw [hcall]
    refine ⟨⟨hstep, ?_, h.answers⟩, rfl⟩
    rw [tokensOf_succ, ht, h.delivered]
    rfl
  · have hcall : S.call .next = { S with parser := P } := by simp only [Session.call, herr]
    rw [hcall]
    refine ⟨⟨hstep, ?_, h.answers⟩, rfl⟩
    rw [tokensOf_succ, hnone, h.delivered]
    simp

theorem Session.Follows.peek {S : Session} (h : S.Follows L₀ i) {n : ℕ}
    (hsafe : ¬ PeekRaises n S.parser.reader) :
    (S.call (.peek n)).Follows L₀ i ∧ (S.call (.peek n)).raised = S.raised ∨
      (S.call (.peek n)).Follows L₀ (i + 1) ∧ (S.call (.peek n)).raised = S.raised + 1 := by
  obtain ⟨t, R, hok, hstep, hsome, ht⟩ | ⟨e, R, herr, hstep, hnone⟩ :=
    peekToken_spec h.inStep hsafe
  · have hcall : S.call (.peek n) =
        { S with
          parser := { S.parser with reader := R }
          answers := S.answers ++ [(S.delivered.length + n, t.tok)] } := by
      simp only [Session.call, hok]
    rw [hcall]
    refine .inl ⟨⟨hstep, h.delivered, fun a ha => ?_⟩, rfl⟩
    rcases List.mem_append.1 ha with ha | ha
    · exact h.answers a ha
    · obtain rfl := List.mem_singleton.1 ha
      exact ⟨i + n + 1, t, by rw [h.delivered, tokensOf_add hsome, ht], rfl⟩
  · have hcall : S.call (.peek n) =
        { S with parser := { S.parser with reader := R }, raised := S.raised + 1 } := by
      simp only [Session.call, herr]
    rw [hcall]
    refine .inr ⟨⟨hstep, ?_, h.answers⟩, rfl⟩
    rw [tokensOf_succ, hnone, h.delivered]
    simp

/-- By induction on the calls: each keeps the session in step with the scans. -/
theorem Session.Follows.run {S : Session} (h : S.Follows L₀ i) {calls : List Call}
    (hsafe : SafeRun S calls) :
    ∃ raised, (calls.foldl Session.call S).Follows L₀ (i + calls.count .next + raised) ∧
      (calls.foldl Session.call S).raised = S.raised + raised := by
  induction calls generalizing S i with
  | nil => exact ⟨0, h, rfl⟩
  | cons c calls ih =>
    cases c with
    | next =>
      obtain ⟨hnext, hr⟩ := h.next
      obtain ⟨raised, hf, hr'⟩ := ih hnext hsafe
      rw [List.count_cons_self, List.foldl_cons]
      refine ⟨raised, ?_, by rw [hr', hr]⟩
      convert hf using 1
      omega
    | peek n =>
      have hcount : (Call.peek n :: calls).count .next = calls.count .next :=
        List.count_cons_of_ne (by simp)
      rw [hcount, List.foldl_cons]
      obtain ⟨hpeek, hr⟩ | ⟨hpeek, hr⟩ := h.peek hsafe.1
      · obtain ⟨raised, hf, hr'⟩ := ih hpeek hsafe.2
        exact ⟨raised, hf, by rw [hr', hr]⟩
      · obtain ⟨raised, hf, hr'⟩ := ih hpeek hsafe.2
        refine ⟨raised + 1, ?_, by rw [hr', hr]; omega⟩
        convert hf using 1
        omega

theorem Session.follows_start (text : Bytes) (filename : String) :
    (Session.start text filename).Follows (openLexer text filename) 0 where
  inStep := .of_empty _ 0
  delivered := rfl
  answers := by simp [Session.start]

/-- A parser that only calls `getNextToken` gets what the scans return. -/
theorem session_replicate (text : Bytes) (filename : String) (k : ℕ) :
    (session text filename (List.replicate k .next)).Follows (openLexer text filename) k := by
  induction k with
  | zero => exact Session.follows_start text filename
  | succ k ih =>
    have hstep : session text filename (List.replicate (k + 1) .next) =
        (session text filename (List.replicate k .next)).call .next := by
      rw [session, List.replicate_succ', List.foldl_append]
      rfl
    rw [hstep]
    exact ih.next.1

/-- What reading ahead is to leave alone: some calls of `getNextToken` alone, at least as many,
deliver the same tokens, one more for each call of `peekToken` that raised in place of a
`getNextToken`; and every answer is the kind of the token later delivered. -/
def Transparent (text : Bytes) (filename : String) (calls : List Call) : Prop :=
  let S := session text filename calls
  S.delivered =
      (session text filename (List.replicate (calls.count .next + S.raised) .next)).delivered ∧
    ∀ a ∈ S.answers, ∀ t, S.delivered[a.1]? = some t → t.tok = a.2

/-- Reading ahead is transparent in every run that does not read on, past a token that waits, to a
malformed number. -/
theorem transparent_of_safeRun (text : Bytes) (filename : String) (calls : List Call)
    (h : SafeRun (.start text filename) calls) : Transparent text filename calls := by
  obtain ⟨raised, hf, hr⟩ := (Session.follows_start text filename).run h
  have hraised : (session text filename calls).raised = raised := hr.trans (Nat.zero_add _)
  have hdel : (session text filename calls).delivered =
      tokensOf (openLexer text filename) (calls.count .next + raised) := by
    rw [← Nat.zero_add (calls.count .next)]
    exact hf.delivered
  refine ⟨?_, fun a ha t ht => ?_⟩
  · rw [(session_replicate text filename _).delivered, hraised, hdel]
  · obtain ⟨k, u, hu, htok⟩ := hf.answers a ha
    rw [hdel] at ht
    rw [← tokensOf_agree hu ht, htok]

/-- A run that reads ahead past a string, a comment and the end of the text. -/
theorem transparent_of_safeRun_sample :
    Transparent (bytes "x = \"a\"; // b") "f.tr" [.next, .peek 2, .next, .peek 6, .next] :=
  transparent_of_safeRun _ _ _ ⟨by decide +kernel, by decide +kernel, trivial⟩

/-- `a b 0xZ c`, where the parser at `a` looks two tokens ahead: `b` waits when `0x` raises, and
the token after that is delivered as one that begins where `b` ended and with `b`'s radix. -/
theorem not_transparent_past_malformed_number :
    ¬ Transparent (bytes "a b 0xZ c") "f.tr" [.next, .peek 1, .next, .next] := by
  intro h
  have hraised : (session (bytes "a b 0xZ c") "f.tr" [.next, .peek 1, .next, .next]).raised = 1 := by
    decide +kernel
  have hne : (session (bytes "a b 0xZ c") "f.tr" [.next, .peek 1, .next, .next]).delivered ≠
      (session (bytes "a b 0xZ c") "f.tr" (List.replicate 4 .next)).delivered := by
    decide +kernel
  obtain ⟨heq, -⟩ := h
  rw [hraised] at heq
  exact hne heq

end Lexer

end TurfLang
