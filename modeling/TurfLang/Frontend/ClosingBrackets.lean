import TurfLang.Frontend.TypeArgs

/-!
# `>>`, `>=` and `>>=` where argument lists close

`TypeArgListFollower` looks past a list of arguments before it is parsed, on tokens that are not
split yet. It counts `>>` as two brackets and takes `>=` and `>>=` for no part of a type. The lexer,
on a run of brackets, makes tokens that are split back to them.
-/

namespace TurfLang

namespace ParserCore

open Lexer Strings

/-! ### What follows a list of arguments -/

/-- What a token that can be in a type does to `Depth`. -/
def depthChange : Token → Option ℤ
  | .char 60 => some 1
  | .char 62 => some (-1)
  | .tokRshift => some (-2)
  | .tokTypeInt | .tokTypeInt32 | .tokTypeDouble | .tokTypeBool | .tokTypeChar | .tokTypeString
  | .tokTypeVoid | .tokPtr => some 0
  | .tokIdentifier | .tokScope | .char 44 | .char 91 | .char 93 | .tokIntLiteral | .char 42
  | .char 38 | .char 63 | .char 33 | .tokFn | .char 40 | .char 41 | .tokColon => some 0
  | _ => none

def isTypeKeyword : Token → Bool
  | .tokTypeInt | .tokTypeInt32 | .tokTypeDouble | .tokTypeBool | .tokTypeChar | .tokTypeString
  | .tokTypeVoid | .tokPtr => true
  | _ => false

/-- The loop of `TypeArgListFollower` on the tokens from `peekToken(I)` on, after `previous`. -/
def followerLoop : ℕ → ℤ → Bool → Option Token → Tokens → Option (Token × Bool)
  | 0, _, _, _, _ => none
  | rounds + 1, depth, keyword, previous, ts =>
    -- An array size is the one place a number appears in a type.
    if curTok ts = .tokIntLiteral ∧ previous ≠ some (.char 91) then none
    else
      match depthChange (curTok ts) with
      | none => none
      | some change =>
        if depth + change = 0 then some (curTok ts.tail, keyword || isTypeKeyword (curTok ts))
        else if depth + change < 0 then none
        else
          followerLoop rounds (depth + change) (keyword || isTypeKeyword (curTok ts))
            (some (curTok ts)) ts.tail

/-- `TypeArgListFollower`: the token after the list and `SawTypeKeyword`; with `none` it returns 0
and leaves `SawTypeKeyword` alone. -/
def typeArgListFollower (ts : Tokens) : Option (Token × Bool) := followerLoop 64 1 false none ts.tail

/-- `TypeArgsThenScopeAhead`. -/
def typeArgsThenScopeAhead (ts : Tokens) : Bool :=
  (typeArgListFollower ts).any fun r => r.1 = .tokScope

section Follower

variable {fs ts : Tokens} {n : ℕ} {depth : ℤ} {keyword : Bool} {previous previous' : Option Token}
  {c : Token} {kw : Bool}

/-- What a round that finds the end of the list, or goes on to it, has before it. -/
theorem followerLoop_succ_eq_some :
    followerLoop (n + 1) depth keyword previous ts = some (c, kw) ↔
      ¬ (curTok ts = .tokIntLiteral ∧ ¬ previous = some (.char 91)) ∧
        ∃ change, depthChange (curTok ts) = some change ∧
          (depth + change = 0 ∧ curTok ts.tail = c ∧ (keyword || isTypeKeyword (curTok ts)) = kw ∨
            0 < depth + change ∧ followerLoop n (depth + change)
              (keyword || isTypeKeyword (curTok ts)) (some (curTok ts)) ts.tail = some (c, kw)) := by
  rw [followerLoop]
  by_cases hlit : curTok ts = .tokIntLiteral ∧ ¬ previous = some (.char 91)
  · simp [hlit]
  · rw [if_neg hlit]
    cases depthChange (curTok ts) with
    | none => simp
    | some change =>
      simp only [hlit, not_false_eq_true, true_and, Option.some.injEq, exists_eq_left']
      rcases lt_trichotomy (depth + change) 0 with hlt | heq | hgt
      · simp [hlt, hlt.ne, hlt.not_gt]
      · simp [heq]
      · simp [hgt, hgt.ne', hgt.not_gt]

/-- A round over a closing bracket. -/
theorem followerLoop_close (h : curTok ts = .char 62) :
    followerLoop (n + 1) depth keyword previous ts = some (c, kw) ↔
      (depth = 1 ∧ curTok ts.tail = c ∧ keyword = kw ∨
        1 < depth ∧ followerLoop n (depth - 1) keyword (some (.char 62)) ts.tail = some (c, kw)) := by
  rw [followerLoop_succ_eq_some, h]
  simp [depthChange, isTypeKeyword, ← sub_eq_add_neg, sub_eq_zero]

/-- A round over two closing brackets. -/
theorem followerLoop_shift (h : curTok ts = .tokRshift) :
    followerLoop (n + 1) depth keyword previous ts = some (c, kw) ↔
      (depth = 2 ∧ curTok ts.tail = c ∧ keyword = kw ∨
        2 < depth ∧ followerLoop n (depth - 2) keyword (some .tokRshift) ts.tail = some (c, kw)) := by
  rw [followerLoop_succ_eq_some, h]
  simp [depthChange, isTypeKeyword, ← sub_eq_add_neg, sub_eq_zero]

/-- A token that cannot be in a type ends the search. -/
theorem followerLoop_of_none (h : depthChange (curTok ts) = none) :
    followerLoop n depth keyword previous ts ≠ some (c, kw) := by
  cases n with
  | zero => nofun
  | succ n => simp [followerLoop_succ_eq_some, h]

theorem splitClose_eq_some {tok rest : Token} (h : splitClose tok = some rest) :
    tok = .tokRshift ∧ rest = .char 62 ∨ tok = .tokRshiftAssign ∧ rest = .tokGeq ∨
      tok = .tokGeq ∧ rest = .tokAssign := by
  cases tok <;> simp_all [splitClose, eq_comm]

/-- A token that is no part of another on the left. -/
theorem Fused.curTok_eq (h : Fused fs ts) (hs : splitClose (curTok fs) = none) :
    curTok fs = curTok ts ∧ Fused fs.tail ts.tail := by
  cases h with
  | nil => exact ⟨rfl, .nil⟩
  | same htok h => exact ⟨htok.tok, h⟩
  | split ht hu h =>
    rw [curTok_cons, ht] at hs
    cases hs

/-- What an equals sign that may have a bracket before it is on the right. -/
theorem Fused.curTok_of_assign (h : Fused fs ts) (ht : curTok fs = .tokAssign ∨ curTok fs = .tokGeq) :
    curTok ts = .char 62 ∨ curTok ts = .tokAssign ∨ curTok ts = .tokGeq := by
  cases h with
  | nil => rcases ht with ht | ht <;> cases ht
  | same htok h =>
    rw [curTok_cons, htok.tok] at ht
    exact .inr ht
  | split hs hu h => exact .inl hu

/-- A list that closes right before it is followed by an equals sign. -/
theorem Fused.follower_of_assign (h : Fused fs ts) (ht : curTok fs = .tokAssign ∨ curTok fs = .tokGeq)
    (hts : followerLoop n depth keyword previous ts = some (c, kw)) : c = .tokAssign := by
  cases h with
  | nil => exact absurd hts (followerLoop_of_none rfl)
  | same htok h =>
    refine absurd hts (followerLoop_of_none ?_)
    rw [curTok_cons, htok.tok] at ht
    rcases ht with ht | ht <;> rw [curTok_cons, ht] <;> rfl
  | @split t u fs ts rest hs hu h =>
    obtain ⟨htok, -⟩ | ⟨htok, -⟩ | ⟨-, rfl⟩ := splitClose_eq_some hs
    · simp [htok] at ht
    · simp [htok] at ht
    · have hcur : Token.tokAssign = curTok ts := (h.curTok_eq rfl).1
      have hu' : curTok (u :: ts) = .char 62 := hu
      cases n with
      | zero => cases hts
      | succ n =>
        obtain ⟨-, hc, -⟩ | ⟨-, hgo⟩ := (followerLoop_close hu').1 hts
        · exact hc.symm.trans hcur.symm
        · exact absurd hgo (followerLoop_of_none (by rw [List.tail_cons, ← hcur]; rfl))

/-- What is found after the separated spelling is found after the other. -/
theorem followerLoop_of_separated {m : ℕ} (h : Fused fs ts) (hm : n ≤ m)
    (hprev : previous = some (.char 91) ↔ previous' = some (.char 91))
    (hclose : c ≠ .char 62) (hassign : c ≠ .tokAssign) (hgeq : c ≠ .tokGeq)
    (hts : followerLoop n depth keyword previous ts = some (c, kw)) :
    followerLoop m depth keyword previous' fs = some (c, kw) := by
  induction n using Nat.strong_induction_on generalizing m fs ts depth keyword previous previous' with
  | _ n ih =>
    obtain ⟨n, rfl⟩ : ∃ k, n = k + 1 := by
      cases n with
      | zero => cases hts
      | succ n => exact ⟨n, rfl⟩
    obtain ⟨m, rfl⟩ : ∃ k, m = k + 1 := ⟨m - 1, by omega⟩
    cases h with
    | nil => exact absurd hts (followerLoop_of_none rfl)
    | @same t u fs ts htok h =>
      rw [followerLoop_succ_eq_some] at hts ⊢
      rw [hprev] at hts
      simp only [curTok_cons, htok.tok, List.tail_cons] at hts ⊢
      obtain ⟨hlit, change, hchange, ⟨hzero, hc, hkw⟩ | ⟨hpos, hgo⟩⟩ := hts
      · have hcur : curTok fs = curTok ts := (h.of_ne_close (by rwa [hc])).1
        exact ⟨hlit, change, hchange, .inl ⟨hzero, hcur.trans hc, hkw⟩⟩
      · exact ⟨hlit, change, hchange,
          .inr ⟨hpos, ih n (by omega) h (by omega) Iff.rfl hgo⟩⟩
    | @split t u fs ts rest ht hu h =>
      have hu' : curTok (u :: ts) = .char 62 := hu
      rw [followerLoop_close hu'] at hts
      obtain ⟨htok, rfl⟩ | ⟨htok, rfl⟩ | ⟨htok, rfl⟩ := splitClose_eq_some ht
      · -- `>>` is two brackets.
        obtain ⟨hcur, h⟩ := h.curTok_eq rfl
        obtain ⟨-, hc, -⟩ | ⟨hpos, hgo⟩ := hts
        · exact absurd (hc.symm.trans hcur.symm) hclose
        cases n with
        | zero => cases hgo
        | succ n =>
          have ht' : curTok (t :: fs) = .tokRshift := htok
          rw [followerLoop_shift ht']
          obtain ⟨hone, hc, hkw⟩ | ⟨hone, hgo⟩ := (followerLoop_close hcur.symm).1 hgo
          · have hne : curTok ts.tail ≠ .char 62 := by rwa [hc]
            exact .inl ⟨by omega, (h.of_ne_close hne).1.trans hc, hkw⟩
          · rw [show depth - 1 - 1 = depth - 2 by ring] at hgo
            exact .inr ⟨by omega, ih n (by omega) h (by omega) (by simp) hgo⟩
      all_goals
        obtain ⟨-, hc, -⟩ | ⟨-, hgo⟩ := hts
        · have hend := h.curTok_of_assign (by simp)
          rw [← hc, List.tail_cons] at hclose hassign hgeq
          tauto
        · exact absurd (h.follower_of_assign (by simp) hgo) hassign

/-- What is found after the other spelling is found after the separated one, if enough of that is
read. -/
theorem followerLoop_of_fused (h : Fused fs ts)
    (hprev : previous = some (.char 91) ↔ previous' = some (.char 91)) (hc : splitClose c = none)
    (hfs : followerLoop n depth keyword previous' fs = some (c, kw)) :
    ∃ m, followerLoop m depth keyword previous ts = some (c, kw) := by
  induction n generalizing fs ts depth keyword previous previous' with
  | zero => cases hfs
  | succ n ih =>
    cases h with
    | nil => exact absurd hfs (followerLoop_of_none rfl)
    | @same t u fs ts htok h =>
      rw [followerLoop_succ_eq_some, ← hprev] at hfs
      simp only [curTok_cons, htok.tok, List.tail_cons] at hfs
      obtain ⟨hlit, change, hchange, ⟨hzero, hcur, hkw⟩ | ⟨hpos, hgo⟩⟩ := hfs
      · refine ⟨1, followerLoop_succ_eq_some.2 ⟨hlit, change, hchange, .inl ⟨hzero, ?_, hkw⟩⟩⟩
        exact (h.curTok_eq (by rwa [hcur])).1.symm.trans hcur
      · obtain ⟨m, hm⟩ := ih h Iff.rfl hgo
        exact ⟨m + 1, followerLoop_succ_eq_some.2 ⟨hlit, change, hchange, .inr ⟨hpos, hm⟩⟩⟩
    | @split t u fs ts rest ht hu h =>
      have hu' : curTok (u :: ts) = .char 62 := hu
      obtain ⟨htok, rfl⟩ | ⟨htok, rfl⟩ | ⟨htok, rfl⟩ := splitClose_eq_some ht
      · obtain ⟨hcur, h⟩ := h.curTok_eq rfl
        have ht' : curTok (t :: fs) = .tokRshift := htok
        obtain ⟨htwo, hc', hkw⟩ | ⟨htwo, hgo⟩ := (followerLoop_shift ht').1 hfs
        · refine ⟨2, (followerLoop_close hu').2 (.inr ⟨by omega, (followerLoop_close hcur.symm).2
            (.inl ⟨by omega, ?_, hkw⟩)⟩)⟩
          rw [List.tail_cons] at hc' h
          exact (h.curTok_eq (by rw [hc', hc])).1.symm.trans hc'
        · have hprev' : some (Token.char 62) = some (.char 91) ↔
              some Token.tokRshift = some (.char 91) := by simp
          obtain ⟨m, hm⟩ := ih h hprev' hgo
          refine ⟨m + 2, (followerLoop_close hu').2 (.inr ⟨by omega,
            (followerLoop_close hcur.symm).2 (.inr ⟨by omega, ?_⟩)⟩)⟩
          rwa [show depth - 1 - 1 = depth - 2 by ring]
      all_goals
        exact absurd hfs (followerLoop_of_none (by rw [curTok_cons, htok]; rfl))

end Follower

/-! ### What the lexer makes of closing brackets -/

/-- The fields that a token is read with and that its place does not change. -/
structure SamePayload (L L' : LexerState) : Prop where
  identifierStr : L.identifierStr = L'.identifierStr
  numLitClean : L.numLitClean = L'.numLitClean
  numLitRadix : L.numLitRadix = L'.numLitRadix

theorem SamePayload.trans {L L' L'' : LexerState} (h : SamePayload L L') (h' : SamePayload L' L'') :
    SamePayload L L'' :=
  ⟨h.1.trans h'.1, h.2.trans h'.2, h.3.trans h'.3⟩

/-- `L` is about to read `s`. -/
def At (L : LexerState) (s : Bytes) : Prop := L.lastChar = s.head? ∧ L.source = s.tail

/-- `L` is about to read `s`, perhaps after white space. -/
def Ahead (L : LexerState) (s : Bytes) : Prop := ∃ sp : Bytes, (∀ c ∈ sp, isSpace c = true) ∧ At L (sp ++ s)

theorem At.ahead {L : LexerState} {s : Bytes} (h : At L s) : Ahead L s := ⟨[], by simp, h⟩

/-- White space is passed over, and nothing but the place changes. -/
theorem skipSpace_ahead {L : LexerState} {c : UInt8} {s : Bytes} (h : Ahead L (c :: s))
    (hc : isSpace c = false) : At (skipSpace L) (c :: s) ∧ SamePayload L (skipSpace L) := by
  obtain ⟨sp, hsp, hat⟩ := h
  have hrun : ∀ fuel, sp.length ≤ fuel →
      At (Loop.whileFuel (fun L => L.lastChar.any isSpace) skipSpaceRound fuel L) (c :: s) ∧
        SamePayload L (Loop.whileFuel (fun L => L.lastChar.any isSpace) skipSpaceRound fuel L) := by
    intro fuel hfuel
    induction sp generalizing L fuel with
    | nil =>
      cases fuel with
      | zero => exact ⟨hat, rfl, rfl, rfl⟩
      | succ fuel =>
        have hstop : (L.lastChar.any isSpace) = false := by
          rw [hat.1]
          exact hc
        rw [Loop.whileFuel, if_neg (by simp [hstop])]
        exact ⟨hat, rfl, rfl, rfl⟩
    | cons a sp ih =>
      obtain ⟨fuel, rfl⟩ : ∃ k, fuel = k + 1 := ⟨fuel - 1, by simp at hfuel; omega⟩
      have hgo : (L.lastChar.any isSpace) = true := by
        rw [hat.1]
        exact hsp a (by simp)
      have hround : At (skipSpaceRound L) (sp ++ c :: s) ∧ SamePayload L (skipSpaceRound L) := by
        have hsource : L.source = sp ++ c :: s := hat.2
        unfold skipSpaceRound
        refine ⟨⟨?_, ?_⟩, ?_, ?_, ?_⟩ <;> dsimp only <;> split <;> split <;> simp [hsource]
      rw [Loop.whileFuel, if_pos hgo]
      obtain ⟨hat', hpay⟩ := ih (fun d hd => hsp d (List.mem_cons_of_mem _ hd)) hround.1 fuel
        (by simpa using hfuel)
      exact ⟨hat', hround.2.trans hpay⟩
  refine hrun _ ?_
  have hlen := congrArg List.length hat.2
  simp at hlen
  omega

theorem At.advance {L : LexerState} {c : UInt8} {s : Bytes} (h : At L (c :: s)) :
    At L.advance s ∧ SamePayload L L.advance := by
  obtain ⟨-, hsource⟩ := h
  refine ⟨⟨?_, ?_⟩, rfl, rfl, rfl⟩
  · simp [LexerState.advance, hsource]
  · simp [LexerState.advance, hsource]

/-- A scan that makes `t` of the beginning of `s` and leaves `s'`. -/
def Scans (f : LexerState → Token × LexerState) (s : Bytes) (t : Token) (s' : Bytes) : Prop :=
  ∀ L, At L s → (f L).1 = t ∧ At (f L).2 s' ∧ SamePayload L (f L).2

section Scans

variable {t t' : Token} {longer : List (UInt8 × (LexerState → Token × LexerState))} {c : UInt8}
  {s s' : Bytes}

theorem scans_short (h : (longer.find? fun op => s.head? = some op.1) = none) :
    Scans (scanOperator t longer) (c :: s) t s := by
  intro L hL
  obtain ⟨hat, hpay⟩ := hL.advance
  have hop : scanOperator t longer L = (t, L.advance) := by
    simp only [scanOperator, hat.1, h]
  rw [hop]
  exact ⟨rfl, hat, hpay⟩

theorem scans_longer {op : UInt8 × (LexerState → Token × LexerState)}
    (h : (longer.find? fun op => s.head? = some op.1) = some op) (hop : Scans op.2 s t' s') :
    Scans (scanOperator t longer) (c :: s) t' s' := by
  intro L hL
  obtain ⟨hat, hpay⟩ := hL.advance
  have hlong : scanOperator t longer L = op.2 L.advance := by
    simp only [scanOperator, hat.1, h]
  obtain ⟨htok, hat', hpay'⟩ := hop L.advance hat
  rw [hlong]
  exact ⟨htok, hat', hpay.trans hpay'⟩

/-- A token that begins with the byte of an operator is that operator's. -/
theorem gettok_operator {L : LexerState} {op : UInt8 × (LexerState → Token × LexerState)}
    (h : Ahead L (c :: s)) (hop : (operators.find? fun op => some c = some op.1) = some op)
    (hspace : isSpace c = false) (hname : ¬ (isAlpha c = true ∨ c = 95))
    (hquote : c ≠ 34 ∧ c ≠ 39 ∧ c ≠ 46) (hdigit : isDigit c = false)
    (hscan : Scans op.2 (c :: s) t s') :
    ∃ L', gettok L = .ok t L' ∧ At L' s' ∧ SamePayload L L' := by
  let L₀ : LexerState :=
    { L with prevTokEndLine := L.curLoc.endLine, prevTokEndCol := L.curLoc.endCol }
  have h₀ : Ahead L₀ (c :: s) := h
  obtain ⟨hat, hpay⟩ := skipSpace_ahead h₀ hspace
  let L₁ := stampLoc (skipSpace L₀)
  have hlast : L₁.lastChar = some c := hat.1
  have hrun : gettokScan (L.source.length + 1) L₀ = .ok (op.2 L₁).1 (op.2 L₁).2 := by
    unfold gettokScan
    simp only [show stampLoc (skipSpace L₀) = L₁ from rfl, hlast]
    rw [if_neg (by simpa using hname), if_neg (by simpa using hquote.1),
      if_neg (by simpa using hquote.2.1), if_neg (by simp [hquote.2.2]),
      if_neg (by simp [hdigit, hquote.2.2]), hop]
    rfl
  obtain ⟨htok, hat', hpay'⟩ := hscan L₁ hat
  let L₂ := (op.2 L₁).2
  refine ⟨{ L₂ with curLoc := { L₂.curLoc with endLine := L₂.curLine, endCol := L₂.curCol } }, ?_,
    hat', ?_⟩
  · have hrun' : gettokScan (L.source.length + 1) { L with
        prevTokEndLine := L.curLoc.endLine
        prevTokEndCol := L.curLoc.endCol } = .ok t L₂ := by rw [← htok]; exact hrun
    simp only [gettok, hrun']
  · have hpay₁ : SamePayload L L₁ := ⟨hpay.1, hpay.2, hpay.3⟩
    have hall := hpay₁.trans hpay'
    exact ⟨hall.1, hall.2, hall.3⟩

end Scans

/-- The longest operator that begins with a closing bracket, and what is after it. -/
def munch : Bytes → Token × Bytes
  | 61 :: s => (.tokGeq, s)
  | 62 :: 61 :: s => (.tokRshiftAssign, s)
  | 62 :: s => (.tokRshift, s)
  | s => (.char 62, s)

theorem munch_other {s : Bytes} (hclose : s.head? ≠ some 62) (hassign : s.head? ≠ some 61) :
    munch s = (.char 62, s) := by
  unfold munch
  split <;> simp_all

theorem munch_shift {s : Bytes} (h : s.head? ≠ some 61) : munch (62 :: s) = (.tokRshift, s) := by
  unfold munch
  split <;> simp_all

theorem scans_greater (s : Bytes) : Scans scanGreater (62 :: s) (munch s).1 (munch s).2 := by
  unfold munch
  split
  case h_1 s => exact scans_longer rfl (scans_short rfl)
  case h_2 s => exact scans_longer rfl (scans_longer rfl (scans_short rfl))
  case h_3 s hne =>
    refine scans_longer rfl (scans_short ?_)
    cases s with
    | nil => rfl
    | cons c s =>
      have hc : c ≠ 61 := by
        rintro rfl
        exact hne s rfl
      simp [hc]
  case h_4 hne _ hne' =>
    refine scans_short ?_
    cases s with
    | nil => rfl
    | cons c s =>
      have h61 : c ≠ 61 := by
        rintro rfl
        exact hne s rfl
      have h62 : c ≠ 62 := by
        rintro rfl
        exact hne' s rfl
      simp [h61, h62]

theorem gettok_greater {L : LexerState} {s : Bytes} (h : Ahead L (62 :: s)) :
    ∃ L', gettok L = .ok (munch s).1 L' ∧ At L' (munch s).2 ∧ SamePayload L L' :=
  gettok_operator h rfl rfl (by decide) (by decide) rfl (scans_greater s)

theorem gettok_assign {L : LexerState} {s : Bytes} (h : Ahead L (61 :: s)) (hs : s.head? ≠ some 61) :
    ∃ L', gettok L = .ok .tokAssign L' ∧ At L' s ∧ SamePayload L L' :=
  gettok_operator h rfl rfl (by decide) (by decide) rfl (scans_short (by simp [hs]))

/-- Closing brackets, each with `gap` after it. -/
def closers (gap : Bytes) : ℕ → Bytes
  | 0 => []
  | k + 1 => 62 :: (gap ++ closers gap k)

@[simp] theorem closers_zero (gap : Bytes) : closers gap 0 = [] := rfl

theorem closers_succ_append (gap : Bytes) (k : ℕ) (s : Bytes) :
    closers gap (k + 1) ++ s = 62 :: (gap ++ (closers gap k ++ s)) := by
  simp [closers]

/-- What may follow the brackets: an equals sign, `>=` or something that is no part of an operator
with them; with the tokens that belong to it and the text after these. -/
inductive Follows : Bytes → List Token → Bytes → Prop
  | other {s : Bytes} (hclose : s.head? ≠ some 62) (hassign : s.head? ≠ some 61) : Follows s [] s
  | assign {s : Bytes} (h : s.head? ≠ some 61) : Follows (61 :: s) [.tokAssign] s
  | geq (s : Bytes) : Follows (62 :: 61 :: s) [.tokGeq] s

/-- From `L` on, the next tokens are `ts`, and leave `L'`. -/
def Lexes (L : LexerState) (ts : Tokens) (L' : LexerState) : Prop :=
  ∃ m, tokensOf L m = ts ∧ scanned L m = L'

theorem Lexes.refl (L : LexerState) : Lexes L [] L := ⟨0, rfl, rfl⟩

theorem Lexes.cons {L L' L'' : LexerState} {tok : Token} {ts : Tokens} (h : gettok L = .ok tok L')
    (hts : Lexes L' ts L'') : Lexes L (captureToken L' tok :: ts) L'' := by
  obtain ⟨m, rfl, rfl⟩ := hts
  have hafter : after L = L' := by
    unfold after
    rw [h]
  have hnext : ∀ k, scanned L (k + 1) = scanned L' k := by
    intro k
    rw [← hafter]
    exact Function.iterate_succ_apply after k L
  refine ⟨m + 1, ?_, hnext m⟩
  have hfirst : tokenAt L 0 = some (captureToken L' tok) := by
    simp only [tokenAt, scanned, Function.iterate_zero, id_eq, h]
  have hrest : ∀ k, tokenAt L (k + 1) = tokenAt L' k := fun k => by rw [tokenAt, tokenAt, hnext k]
  rw [tokensOf, List.range_succ_eq_map, List.filterMap_cons, hfirst, List.filterMap_map]
  simp only [tokensOf, Function.comp_def, hrest]

section Closers

variable {gap r s : Bytes} {toks : List Token}

theorem SamePayload.sameToken {L L' : LexerState} (h : SamePayload L L') (tok : Token) :
    SameToken (captureToken L tok) (captureToken L' tok) :=
  ⟨rfl, h.1, h.2, h.3⟩

theorem SamePayload.symm {L L' : LexerState} (h : SamePayload L L') : SamePayload L' L :=
  ⟨h.1.symm, h.2.symm, h.3.symm⟩

/-- A bracket with white space after it is a token of its own. -/
theorem gettok_closer (hgap : gap ≠ []) (hspace : ∀ c ∈ gap, isSpace c = true) {L : LexerState}
    (h : Ahead L (62 :: (gap ++ s))) :
    ∃ L', gettok L = .ok (.char 62) L' ∧ Ahead L' s ∧ SamePayload L L' := by
  obtain ⟨L', hget, hat, hpay⟩ := gettok_greater h
  have hmunch : munch (gap ++ s) = (.char 62, gap ++ s) := by
    cases gap with
    | nil => exact absurd rfl hgap
    | cons c gap =>
      have hc := hspace c (by simp)
      refine munch_other ?_ ?_ <;>
      · rintro heq
        injection heq with heq
        rw [heq] at hc
        cases hc
  rw [hmunch] at hget hat
  exact ⟨L', hget, ⟨gap, hspace, hat⟩, hpay⟩

/-- The two spellings of closing brackets and what follows them are lexed to the same tokens, but
for their spelling. -/
structure LexedAlike (k : ℕ) (toks : List Token) (s : Bytes) (L₁ L₂ : LexerState) : Prop where
  intro ::
  lexes : ∃ fs ts L₁' L₂', Lexes L₁ fs L₁' ∧ Lexes L₂ ts L₂' ∧ Fused fs ts ∧
    ts.map LexedToken.tok = List.replicate k (.char 62) ++ toks ∧
    Ahead L₁' s ∧ Ahead L₂' s ∧ SamePayload L₁' L₂'

theorem closers_lexed (hgap : gap ≠ []) (hspace : ∀ c ∈ gap, isSpace c = true)
    (hr : Follows r toks s) (k : ℕ) {L₁ L₂ : LexerState} (h₁ : Ahead L₁ (closers [] k ++ r))
    (h₂ : Ahead L₂ (closers gap k ++ r)) (hpay : SamePayload L₁ L₂) :
    LexedAlike k toks s L₁ L₂ := by
  induction k using Nat.strong_induction_on generalizing L₁ L₂ with
  | _ k ih =>
    rcases k with _ | _ | k
    · cases hr with
      | other hclose hassign => exact ⟨[], [], L₁, L₂, .refl _, .refl _, .nil, rfl, h₁, h₂, hpay⟩
      | assign h =>
        obtain ⟨L₁', hget₁, hat₁, hpay₁⟩ := gettok_assign h₁ h
        obtain ⟨L₂', hget₂, hat₂, hpay₂⟩ := gettok_assign h₂ h
        have hpay' := hpay₁.symm.trans (hpay.trans hpay₂)
        exact ⟨_, _, L₁', L₂', .cons hget₁ (.refl _), .cons hget₂ (.refl _),
          .same (hpay'.sameToken _) .nil, rfl, hat₁.ahead, hat₂.ahead, hpay'⟩
      | geq =>
        obtain ⟨L₁', hget₁, hat₁, hpay₁⟩ := gettok_greater h₁
        obtain ⟨L₂', hget₂, hat₂, hpay₂⟩ := gettok_greater h₂
        have hpay' := hpay₁.symm.trans (hpay.trans hpay₂)
        exact ⟨_, _, L₁', L₂', .cons hget₁ (.refl _), .cons hget₂ (.refl _),
          .same (hpay'.sameToken _) .nil, rfl, hat₁.ahead, hat₂.ahead, hpay'⟩
    · -- The last bracket may be one token with what follows.
      simp only [closers_succ_append, closers_zero, List.nil_append] at h₁ h₂
      obtain ⟨L₁', hget₁, hat₁, hpay₁⟩ := gettok_greater h₁
      obtain ⟨L₂', hget₂, hahead₂, hpay₂⟩ := gettok_closer hgap hspace h₂
      have hpay' := hpay₁.symm.trans (hpay.trans hpay₂)
      cases hr with
      | other hclose hassign =>
        rw [munch_other hclose hassign] at hget₁ hat₁
        exact ⟨_, _, L₁', L₂', .cons hget₁ (.refl _), .cons hget₂ (.refl _),
          .same (hpay'.sameToken _) .nil, rfl, hat₁.ahead, hahead₂, hpay'⟩
      | assign h =>
        obtain ⟨L₂'', hget₂', hat₂, hpay₂'⟩ := gettok_assign hahead₂ h
        have hpay'' := hpay'.trans hpay₂'
        exact ⟨_, _, L₁', L₂'', .cons hget₁ (.refl _), .cons hget₂ (.cons hget₂' (.refl _)),
          .split rfl rfl (.same (hpay''.sameToken .tokAssign) .nil), rfl, hat₁.ahead, hat₂.ahead,
          hpay''⟩
      | geq =>
        obtain ⟨L₂'', hget₂', hat₂, hpay₂'⟩ := gettok_greater hahead₂
        have hpay'' := hpay'.trans hpay₂'
        exact ⟨_, _, L₁', L₂'', .cons hget₁ (.refl _), .cons hget₂ (.cons hget₂' (.refl _)),
          .split rfl rfl (.same (hpay''.sameToken .tokGeq) .nil), rfl, hat₁.ahead, hat₂.ahead,
          hpay''⟩
    · simp only [closers_succ_append, List.nil_append] at h₁ h₂
      obtain ⟨L₁', hget₁, hat₁, hpay₁⟩ := gettok_greater h₁
      obtain ⟨L₂', hget₂, hahead₂, hpay₂⟩ := gettok_closer hgap hspace h₂
      obtain ⟨L₃', hget₃, hahead₃, hpay₃⟩ := gettok_closer hgap hspace hahead₂
      have hpay' := hpay₁.symm.trans (hpay.trans (hpay₂.trans hpay₃))
      by_cases hshift : (closers [] k ++ r).head? = some 61
      · -- `>>=`, where the equals sign is the token that follows.
        cases k with
        | succ k => cases hshift
        | zero =>
          cases hr with
          | other hclose hassign => exact absurd hshift hassign
          | geq => cases hshift
          | assign h =>
            obtain ⟨L₄', hget₄, hat₄, hpay₄⟩ := gettok_assign hahead₃ h
            have hpay'' := hpay'.trans hpay₄
            exact ⟨_, _, L₁', L₄', .cons hget₁ (.refl _),
              .cons hget₂ (.cons hget₃ (.cons hget₄ (.refl _))),
              .split rfl rfl (.split rfl rfl (.same (hpay''.sameToken .tokAssign) .nil)), rfl,
              hat₁.ahead, hat₄.ahead, hpay''⟩
      · rw [munch_shift hshift] at hget₁ hat₁
        obtain ⟨fs, ts, L₁'', L₂'', hfs, hts, hf, htoks, hend₁, hend₂, hpay''⟩ :=
          ih k (by omega) hat₁.ahead hahead₃ hpay'
        refine ⟨_, _, L₁'', L₂'', .cons hget₁ hfs, .cons hget₂ (.cons hget₃ hts),
          .split rfl rfl (.same (hpay'.sameToken (.char 62)) hf), ?_, hend₁, hend₂, hpay''⟩
        simp [htoks, captureToken, List.replicate_succ]

end Closers

/-! ### The two spellings -/

/-- The spellings of a type are parsed alike: it is the same type, or it is refused in both, and the
tokens left are the same but for their spelling. `TypeArgListFollower` reports after the fused
spelling what it reports after the separated one, an equals sign apart, and would report after that
what it reports after the fused one, if it read enough tokens. The lexer makes nothing else of
brackets that are written together. -/
theorem spellings_agree (ctx : TypeContext) (room : ℕ) (fs ts : Tokens) (h : Fused fs ts) :
    (∀ T rest, parseType ctx room ts = .ok (T, rest) →
      ∃ rest', parseType ctx room fs = .ok (T, rest') ∧ Fused rest' rest ∧
        (curTok rest ≠ .char 62 → curTok rest' = curTok rest)) ∧
    (∀ T rest', parseType ctx room fs = .ok (T, rest') →
      ∃ rest, parseType ctx room ts = .ok (T, rest) ∧ Fused rest' rest) ∧
    (curTok ts = .char 60 → ∀ c keyword,
      (c ≠ .char 62 → c ≠ .tokAssign → c ≠ .tokGeq → typeArgListFollower ts = some (c, keyword) →
        typeArgListFollower fs = some (c, keyword)) ∧
      (splitClose c = none → typeArgListFollower fs = some (c, keyword) →
        ∃ rounds, followerLoop rounds 1 false none ts.tail = some (c, keyword))) ∧
    ∀ (gap r s : Bytes) (toks : List Token) (k : ℕ) (L₁ L₂ : LexerState), gap ≠ [] →
      (∀ c ∈ gap, isSpace c = true) → Follows r toks s → Ahead L₁ (closers [] k ++ r) →
      Ahead L₂ (closers gap k ++ r) → SamePayload L₁ L₂ → LexedAlike k toks s L₁ L₂ := by
  have hparse := parseType_respects ctx room fs ts h
  refine ⟨fun T rest hts => ?_, fun T rest' hfs => ?_, fun hopen c keyword => ⟨?_, ?_⟩, ?_⟩
  · rw [hts] at hparse
    cases hfs : parseType ctx room fs with
    | error e =>
      rw [hfs] at hparse
      exact hparse.elim
    | ok r =>
      rw [hfs] at hparse
      obtain ⟨rfl, hf, -⟩ := hparse
      exact ⟨r.2, rfl, hf, fun hne => (hf.of_ne_close hne).1⟩
  · rw [hfs] at hparse
    cases hts : parseType ctx room ts with
    | error e =>
      rw [hts] at hparse
      exact hparse.elim
    | ok r =>
      rw [hts] at hparse
      obtain ⟨rfl, hf, -⟩ := hparse
      exact ⟨r.2, rfl, hf⟩
  · intro hclose hassign hgeq hts
    exact followerLoop_of_separated (h.tail hopen (by simp)) le_rfl Iff.rfl hclose hassign hgeq hts
  · intro hc hfs
    exact followerLoop_of_fused (h.tail hopen (by simp)) Iff.rfl hc hfs
  · intro gap r s toks k L₁ L₂ hgap hspace hr h₁ h₂ hpay
    exact closers_lexed hgap hspace hr k h₁ h₂ hpay

/-- A token with a name. -/
def namedToken (tok : Token) (name : String) : LexedToken :=
  captureToken { openLexer [] "" with identifierStr := bytes name } tok

/-- `A<B<int>>=` and `A<B<int> > =`. -/
theorem spellings_agree_sample :
    let before := [namedToken .tokIdentifier "A", namedToken (.char 60) "A",
      namedToken .tokIdentifier "B", namedToken (.char 60) "B", namedToken .tokTypeInt "int"]
    let last (tok : Token) := namedToken tok "int"
    ∃ rest', parseType {} 3 (before ++ [last .tokRshiftAssign]) =
      .ok (.generic "A" [.generic "B" [.int]], rest') ∧ curTok rest' = .tokAssign := by
  intro before last
  have hfused : Fused (before ++ [last .tokRshiftAssign])
      (before ++ [last (.char 62), last (.char 62), last .tokAssign]) :=
    .same ⟨rfl, rfl, rfl, rfl⟩ <| .same ⟨rfl, rfl, rfl, rfl⟩ <| .same ⟨rfl, rfl, rfl, rfl⟩ <|
      .same ⟨rfl, rfl, rfl, rfl⟩ <| .same ⟨rfl, rfl, rfl, rfl⟩ <|
      .split rfl rfl <| .split rfl rfl <| .same ⟨rfl, rfl, rfl, rfl⟩ .nil
  obtain ⟨rest', hok, -, hcur⟩ := (spellings_agree {} 3 _ _ hfused).1
    (.generic "A" [.generic "B" [.int]]) [last .tokAssign] (by rfl)
  exact ⟨rest', hok, hcur (by decide)⟩

/-- The text of a type that is nested `n` deep, with `close` for its closing brackets. -/
def nestedType (close : String) (n : ℕ) : String :=
  String.join (List.replicate n "A<") ++ "int" ++ String.join (List.replicate n close) ++ "::x"

/-- At a depth of 22 the separated spelling has more tokens than are read. -/
theorem separated_runs_out :
    typeArgListFollower (tokensOf (openLexer (bytes (nestedType ">" 22)) "") 58).tail =
        some (.tokScope, true) ∧
      typeArgListFollower (tokensOf (openLexer (bytes (nestedType "> " 22)) "") 69).tail = none := by
  constructor <;> decide +kernel

end ParserCore

end TurfLang
