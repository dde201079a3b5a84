import TurfLang.Frontend.Lookahead
import TurfLang.Lib.Raising

/-!
# Where tokens stand

The places that the lexer stamps are read against the text itself: a line and a column are counts
of the bytes before a place. Only the loop over white space begins a line; a branch that makes a
token moves along its line, as long as it passes over no newline. One branch can: an escape takes
the byte after its backslash, whatever that is.
-/

namespace TurfLang

namespace Lexer

open LexerState Raising Strings

/-! ### Places in a text -/

/-- The bytes after the last newline. -/
def lastLine (before : Bytes) : Bytes := (before.reverse.takeWhile (· ≠ 10)).reverse

/-- The line of the place after some bytes. -/
def lineAfter (before : Bytes) : ℕ := 1 + before.count 10

/-- Its column. -/
def colAfter (before : Bytes) : ℕ := 1 + (lastLine before).length

/-- The place after one more byte. -/
def nextPos (pos : ℕ × ℕ) (c : UInt8) : ℕ × ℕ :=
  if c = 10 then (pos.1 + 1, 1) else (pos.1, pos.2 + 1)

theorem foldl_nextPos (before : Bytes) :
    before.foldl nextPos (1, 1) = (lineAfter before, colAfter before) := by
  induction before using List.reverseRecOn with
  | nil => rfl
  | append_singleton before c ih =>
    rw [List.foldl_append, ih]
    by_cases hc : c = 10
    · simp [nextPos, hc, lineAfter, colAfter, lastLine, Nat.add_assoc]
    · simp [nextPos, hc, lineAfter, colAfter, lastLine, Nat.add_assoc]

/-- Along a line only the column changes. -/
theorem foldl_nextPos_of_line {bs : Bytes} (h : 10 ∉ bs) (pos : ℕ × ℕ) :
    bs.foldl nextPos pos = (pos.1, pos.2 + bs.length) := by
  induction bs generalizing pos with
  | nil => rfl
  | cons c bs ih =>
    have hc : c ≠ 10 := fun heq => h (by simp [heq])
    rw [List.foldl_cons, ih fun hmem => h (by simp [hmem])]
    simp only [nextPos, if_neg hc, List.length_cons, Prod.mk.injEq, true_and]
    omega

/-- A later place is further down or further right. -/
theorem toLex_le_foldl_nextPos (bs : Bytes) (pos : ℕ × ℕ) :
    toLex pos ≤ toLex (bs.foldl nextPos pos) := by
  induction bs generalizing pos with
  | nil => exact le_rfl
  | cons c bs ih =>
    refine le_trans (le_of_lt ?_) (ih (nextPos pos c))
    rw [Prod.Lex.toLex_lt_toLex]
    unfold nextPos
    split
    · exact .inl (by simp)
    · exact .inr ⟨rfl, by simp⟩

/-- The white space and the comments before a token. -/
def dropBlanksIn : ℕ → Bytes → Bytes
  | 0, s => s
  | fuel + 1, s =>
    match s.dropWhile isSpace with
    | 47 :: 47 :: s => dropBlanksIn fuel (s.dropWhile isCommentChar)
    | s => s

/-- What stands at the beginning of a token, or nothing. -/
def dropBlanks (s : Bytes) : Bytes := dropBlanksIn (s.length + 1) s

/-! ### Escapes that take a newline -/

/-- A string literal, after its quote, has a backslash right before a newline or the end of the
text. -/
def stringTakesNewline : Bytes → Bool
  | [] => false
  | 34 :: _ => false
  | 10 :: _ => false
  | 92 :: s =>
    match s with
    | [] => true
    | 10 :: _ => true
    | _ :: s => stringTakesNewline s
  | _ :: s => stringTakesNewline s

/-- The text begins with a literal in which a backslash stands right before a newline or the end of
the text. -/
def escapesNewline : Bytes → Bool
  | 34 :: s => stringTakesNewline s
  | 39 :: 92 :: s => s.head? = none ∨ s.head? = some 10
  | _ => false

/-! ### Moves along a line -/

/-- What the lexer has not passed over yet. -/
def remaining (L : LexerState) : Bytes := L.lastChar.toList ++ L.source

/-- The end of the text is seen only when nothing is left to read. -/
def Sound (L : LexerState) : Prop := L.lastChar = none → L.source = []

/-- `L'` is further along the line by some bytes, and has the same place stamped. -/
structure Advances (L L' : LexerState) (bs : Bytes) : Prop where
  rest : remaining L = bs ++ remaining L'
  line : L'.curLine = L.curLine
  col : L'.curCol = L.curCol + bs.length
  loc : L'.curLoc = L.curLoc
  newline : 10 ∉ bs
  sound : Sound L → Sound L'

/-- The same, for some bytes. -/
def Moves (L L' : LexerState) : Prop := ∃ bs, Advances L L' bs

/-- The same, for one byte at least. -/
def Takes (L L' : LexerState) : Prop := ∃ bs, bs ≠ [] ∧ Advances L L' bs

section Moves

variable {L L' L'' : LexerState} {bs bs' : Bytes} {c d : UInt8} {s : Bytes}

theorem Advances.trans (h : Advances L L' bs) (h' : Advances L' L'' bs') :
    Advances L L'' (bs ++ bs') where
  rest := by rw [h.rest, h'.rest, List.append_assoc]
  line := h'.line.trans h.line
  col := by rw [h'.col, h.col, List.length_append, Nat.add_assoc]
  loc := h'.loc.trans h.loc
  newline := by simp [h.newline, h'.newline]
  sound := h'.sound ∘ h.sound

@[simp] theorem remaining_advance (L : LexerState) : remaining L.advance = L.source := by
  unfold remaining advance
  cases L.source <;> rfl

theorem remaining_of_lastChar (hc : L.lastChar = some c) : remaining L = c :: L.source := by
  rw [remaining, hc]
  rfl

theorem sound_advance (L : LexerState) : Sound L.advance := by
  intro h
  simp only [advance, List.head?_eq_none_iff] at h
  simp [advance, h]

theorem advances_advance (hc : L.lastChar = some c) (h10 : c ≠ 10) : Advances L L.advance [c] where
  rest := by rw [remaining_advance, remaining_of_lastChar hc]; rfl
  line := rfl
  col := rfl
  loc := rfl
  newline := by simpa using h10.symm
  sound := fun _ => sound_advance L

/-- What changes neither what is left nor the place. -/
theorem Moves.same (hlast : L'.lastChar = L.lastChar) (hsource : L'.source = L.source)
    (hline : L'.curLine = L.curLine) (hcol : L'.curCol = L.curCol) (hloc : L'.curLoc = L.curLoc) :
    Moves L L' :=
  ⟨[], by rw [remaining, remaining, hlast, hsource]; rfl, hline, hcol, hloc, by simp, by
    rw [Sound, Sound, hlast, hsource]
    exact id⟩

theorem Moves.refl (L : LexerState) : Moves L L := .same rfl rfl rfl rfl rfl

theorem Moves.trans (h : Moves L L') (h' : Moves L' L'') : Moves L L'' := by
  obtain ⟨bs, h⟩ := h
  obtain ⟨bs', h'⟩ := h'
  exact ⟨_, h.trans h'⟩

theorem Takes.moves (h : Takes L L') : Moves L L' := by
  obtain ⟨bs, -, h⟩ := h
  exact ⟨bs, h⟩

theorem Takes.trans_moves (h : Takes L L') (h' : Moves L' L'') : Takes L L'' := by
  obtain ⟨bs, hne, h⟩ := h
  obtain ⟨bs', h'⟩ := h'
  exact ⟨_, by simp [hne], h.trans h'⟩

theorem Moves.trans_takes (h : Moves L L') (h' : Takes L' L'') : Takes L L'' := by
  obtain ⟨bs, h⟩ := h
  obtain ⟨bs', hne, h'⟩ := h'
  exact ⟨_, by simp [hne], h.trans h'⟩

theorem takes_advance (hc : L.lastChar = some c) (h10 : c ≠ 10) : Takes L L.advance :=
  ⟨[c], by simp, advances_advance hc h10⟩

theorem Moves.advance (h : Moves L L') (hc : L'.lastChar = some c) (h10 : c ≠ 10) :
    Takes L L'.advance :=
  h.trans_takes (takes_advance hc h10)

theorem Moves.moves_advance (h : Moves L L') (hc : L'.lastChar = some c) (h10 : c ≠ 10) :
    Moves L L'.advance :=
  (h.advance hc h10).moves

theorem moves_report (L : LexerState) (e : LexError) : Moves L (L.report e) :=
  .same rfl rfl rfl rfl rfl

/-- A loop whose rounds move along the line. -/
theorem moves_loopWhile {p : UInt8 → Bool} {f : LexerState → LexerState}
    (h : ∀ L c, L.lastChar = some c → p c = true → Moves L (f L)) (L : LexerState) :
    Moves L (L.loopWhile p f) := by
  refine Loop.whileFuel_induct (P := Moves L) ?_ _ (.refl L)
  intro L' hp hL'
  obtain ⟨c, hc, hpc⟩ := (Option.any_eq_true _ _).1 hp
  exact hL'.trans (h L' c hc hpc)

/-! ### The branches -/

theorem ne_newline_of_isNameChar (h : isNameChar c = true) : c ≠ 10 := by
  rintro rfl
  cases h

theorem takes_scanIdentifier (hc : L.lastChar = some c) (hname : isAlpha c = true ∨ c = 95) :
    Takes L (scanIdentifier L).2 := by
  have h10 : c ≠ 10 := by
    rintro rfl
    rcases hname with h | h <;> cases h
  let L₀ : LexerState := { L with identifierStr := L.lastChar.toList }
  have hfirst : Takes L L₀.advance := Moves.advance (.same rfl rfl rfl rfl rfl) hc h10
  have hloop := moves_loopWhile (p := isNameChar)
    (f := fun L => advance { L with identifierStr := L.identifierStr ++ L.lastChar.toList })
    (fun L c hc hp => .moves_advance (.same rfl rfl rfl rfl rfl) hc
      (ne_newline_of_isNameChar hp)) L₀.advance
  have hword := hfirst.trans_moves hloop
  unfold scanIdentifier
  dsimp only
  split
  · exact hword
  · split
    · exact hword.trans_moves (.same rfl rfl rfl rfl rfl)
    · exact hword
    · exact hword

/-- An escape, but for the byte that it takes. -/
theorem moves_scanEscape (inString : Bool) (hc : L.lastChar = some 92) :
    Moves L (scanEscape inString L).2 ∧ (scanEscape inString L).2.lastChar = L.source.head? ∧
      (scanEscape inString L).2.source = L.source.tail := by
  have hfirst := (takes_advance hc (by decide)).moves
  unfold scanEscape
  dsimp only
  split
  · exact ⟨hfirst, rfl, rfl⟩
  · exact ⟨hfirst.trans (moves_report _ _), rfl, rfl⟩

theorem stringTakesNewline_escape (h : stringTakesNewline (92 :: s) = false) :
    ∃ d s', s = d :: s' ∧ d ≠ 10 ∧ stringTakesNewline s' = false := by
  cases s with
  | nil => cases h
  | cons d s =>
    have hd : d ≠ 10 := by
      rintro rfl
      cases h
    refine ⟨d, s, rfl, hd, ?_⟩
    rwa [stringTakesNewline] at h
    rintro rfl
    exact hd rfl

theorem stringTakesNewline_cons (hquote : c ≠ 34) (h10 : c ≠ 10) (hesc : c ≠ 92) :
    stringTakesNewline (c :: s) = stringTakesNewline s := by
  rw [stringTakesNewline]
  · exact hquote
  · exact h10
  · exact hesc

/-- A round inside a string that takes no newline. -/
theorem moves_stringRound (hc : L.lastChar = some c) (hp : isStringChar c = true)
    (hs : stringTakesNewline (remaining L) = false) :
    Moves L (stringRound L) ∧ stringTakesNewline (remaining (stringRound L)) = false := by
  have hne : c ≠ 34 ∧ c ≠ 10 := by simpa [isStringChar] using hp
  rw [remaining_of_lastChar hc] at hs
  unfold stringRound
  by_cases hesc : c = 92
  · subst hesc
    rw [if_pos hc]
    obtain ⟨hmove, hlast, hsource⟩ := moves_scanEscape true hc
    obtain ⟨d, s, hds, h10, hrest⟩ := stringTakesNewline_escape hs
    rw [hds] at hlast hsource
    refine ⟨.moves_advance (hmove.trans (.same rfl rfl rfl rfl rfl)) hlast h10, ?_⟩
    rwa [remaining_advance, show LexerState.source _ = s from hsource]
  · rw [if_neg (by simpa [hc] using hesc)]
    refine ⟨.moves_advance (.same rfl rfl rfl rfl rfl) hc hne.2, ?_⟩
    rw [remaining_advance]
    rwa [stringTakesNewline_cons hne.1 hne.2 hesc] at hs

theorem takes_scanString (hc : L.lastChar = some 34) (hs : escapesNewline (remaining L) = false) :
    Takes L (scanString L).2 := by
  let L₀ : LexerState := { L with stringVal := [] }
  have hfirst : Takes L L₀.advance := Moves.advance (.same rfl rfl rfl rfl rfl) hc (by decide)
  have hbody : stringTakesNewline (remaining L₀.advance) = false := by
    rw [remaining_of_lastChar hc] at hs
    rwa [remaining_advance]
  have hloop : Moves L₀.advance (L₀.advance.loopWhile isStringChar stringRound) ∧
      stringTakesNewline (remaining (L₀.advance.loopWhile isStringChar stringRound)) = false := by
    refine Loop.whileFuel_induct
      (P := fun L' => Moves L₀.advance L' ∧ stringTakesNewline (remaining L') = false) ?_ _
      ⟨.refl _, hbody⟩
    rintro L' hp ⟨hmove, hL'⟩
    obtain ⟨c, hc, hpc⟩ := (Option.any_eq_true _ _).1 hp
    obtain ⟨hround, hL''⟩ := moves_stringRound hc hpc hL'
    exact ⟨hmove.trans hround, hL''⟩
  have htext := hfirst.trans_moves hloop.1
  unfold scanString
  dsimp only
  split
  · exact htext.trans_moves (moves_report _ _)
  case isFalse hnone =>
    split
    · exact htext.trans_moves (moves_report _ _)
    case isFalse h10 =>
      obtain ⟨d, hd⟩ := Option.ne_none_iff_exists'.1 hnone
      exact htext.trans_moves (takes_advance hd (by rintro rfl; exact h10 hd)).moves

/-- The one char, when it is no escape that takes a newline. -/
theorem moves_scanCharBody (hc : L.lastChar = some c) (h10 : c ≠ 10)
    (hs : c = 92 → L.source.head? ≠ none ∧ L.source.head? ≠ some 10) :
    Moves L (scanCharBody L) := by
  unfold scanCharBody
  by_cases hesc : c = 92
  · subst hesc
    obtain ⟨hnone, hnewline⟩ := hs rfl
    obtain ⟨d, hd⟩ := Option.ne_none_iff_exists'.1 hnone
    obtain ⟨hmove, hlast, -⟩ := moves_scanEscape false hc
    rw [if_pos hc]
    refine .moves_advance (hmove.trans (.same rfl rfl rfl rfl rfl)) (hlast.trans hd) ?_
    rintro rfl
    exact hnewline hd
  · rw [if_neg (by simpa [hc] using hesc)]
    exact .moves_advance (.same rfl rfl rfl rfl rfl) hc h10

theorem moves_closeChar (L : LexerState) : Moves L (closeChar L) := by
  unfold closeChar
  split
  · have hloop : Moves L ((L.report (.manyChars L.curLoc)).loopWhile isCharChar advance) := by
      refine (moves_report _ _).trans (moves_loopWhile (fun L c hc hp => ?_) _)
      refine (takes_advance hc ?_).moves
      rintro rfl
      cases hp
    dsimp only
    split
    case isTrue hquote => exact hloop.moves_advance hquote (by decide)
    case isFalse => exact hloop
  case isFalse hquote => exact (takes_advance (not_not.1 hquote) (by decide)).moves

theorem takes_scanChar (hc : L.lastChar = some 39) (hs : escapesNewline (remaining L) = false) :
    Takes L (scanChar L).2 := by
  have hfirst : Takes L L.advance := takes_advance hc (by decide)
  unfold scanChar
  dsimp only
  split
  case isTrue hquote =>
    have hlast : (L.advance.report (.emptyChar L.advance.curLoc)).lastChar = some 39 := hquote
    exact hfirst.trans_moves (((moves_report _ _).moves_advance hlast (by decide)).trans
      (.same rfl rfl rfl rfl rfl))
  split
  · exact hfirst.trans_moves (moves_report _ _)
  case isFalse hend =>
    obtain ⟨hnone, h10⟩ := not_or.1 hend
    obtain ⟨c, hlast⟩ := Option.ne_none_iff_exists'.1 hnone
    refine hfirst.trans_moves ((moves_scanCharBody hlast ?_ ?_).trans (moves_closeChar _))
    · rintro rfl
      exact h10 hlast
    · rintro rfl
      have hsource : L.source = 92 :: L.advance.source := by
        cases hsrc : L.source with
        | nil => simp [LexerState.advance, hsrc] at hlast
        | cons d s =>
          obtain rfl : d = 92 := by simpa [LexerState.advance, hsrc] using hlast
          simp [LexerState.advance, hsrc]
      rw [remaining_of_lastChar hc, hsource] at hs
      simpa [escapesNewline] using hs

theorem advances_skipByte (hc : L.lastChar = some c) (hpeek : L.peek = some c) (h10 : c ≠ 10) :
    Advances L L.skipByte [c] where
  rest := by
    obtain ⟨s, hs⟩ : ∃ s, L.source = c :: s := List.head?_eq_some_iff.1 hpeek
    simp [remaining, skipByte, hc, hs]
  line := rfl
  col := rfl
  loc := rfl
  newline := by simpa using h10.symm
  sound := fun h hnone => by simp [skipByte, h hnone]

theorem takes_scanDots (hc : L.lastChar = some 46) (hpeek : L.peek = some 46) :
    Takes L (scanDots L).2 := by
  have hskip : Takes L L.skipByte := ⟨_, by simp, advances_skipByte hc hpeek (by decide)⟩
  unfold scanDots
  dsimp only
  split
  case isTrue hpeek' =>
    have hskip' : Moves L.skipByte L.skipByte.skipByte :=
      ⟨_, advances_skipByte hc hpeek' (by decide)⟩
    exact hskip.trans_moves (hskip'.moves_advance hc (by decide))
  case isFalse => exact hskip.trans_moves (Moves.moves_advance (.refl _) hc (by decide))

theorem IsOperator.takes {f : LexerState → Token × LexerState} (h : IsOperator c f)
    (hc : L.lastChar = some c) : Takes L (f L).2 := by
  induction h generalizing L with
  | @scan c t longer h10 ht hlonger ih =>
    have hfirst := takes_advance hc h10
    unfold scanOperator
    dsimp only
    split
    case h_1 op hfind =>
      have hlast : L.advance.lastChar = some op.1 := by simpa using List.find?_some hfind
      exact hfirst.trans_moves (ih op (List.mem_of_find?_eq_some hfind) hlast).moves
    case h_2 => exact hfirst

theorem takes_scanOther (hc : L.lastChar = some c) (h10 : c ≠ 10) : Takes L (scanOther L).2 := by
  have hfirst := takes_advance hc h10
  unfold scanOther
  split
  · exact hfirst
  · exact hfirst
  case h_3 hnone =>
    rw [hc] at hnone
    cases hnone

end Moves

/-! ### Numbers -/

section Numbers

variable {L : LexerState} {s : NumberScan} {c : UInt8} {p : UInt8 → Bool}

/-- The spelling is what has been passed over since `L`. -/
def Spelled (L : LexerState) (s : NumberScan) : Prop := Advances L s.lexer s.spelling

/-- The same, and it is not empty. -/
def SpelledSome (L : LexerState) (s : NumberScan) : Prop := Spelled L s ∧ s.spelling ≠ []

theorem Spelled.takeMark (h : Spelled L s) (hc : s.lexer.lastChar = some c) (h10 : c ≠ 10) :
    SpelledSome L s.takeMark := by
  have hstep := Advances.trans h (advances_advance hc h10)
  refine ⟨?_, by simp [NumberScan.takeMark, hc]⟩
  simpa [Spelled, NumberScan.takeMark, hc] using hstep

theorem Spelled.takeClean (h : Spelled L s) (hc : s.lexer.lastChar = some c) (h10 : c ≠ 10) :
    SpelledSome L s.takeClean :=
  h.takeMark hc h10

theorem Spelled.takeDigit (h : Spelled L s) (hc : s.lexer.lastChar = some c) (h10 : c ≠ 10) :
    SpelledSome L s.takeDigit := by
  unfold NumberScan.takeDigit
  split
  · exact h.takeMark hc h10
  · exact h.takeClean hc h10

theorem Spelled.takeDigits (h : Spelled L s) (hp : p 10 = false) :
    Spelled L (s.takeDigits p) ∧ (s.spelling ≠ [] → (s.takeDigits p).spelling ≠ []) := by
  refine Loop.whileFuel_induct
    (P := fun s' => Spelled L s' ∧ (s.spelling ≠ [] → s'.spelling ≠ [])) ?_ _ ⟨h, id⟩
  rintro s' hcond ⟨hs', -⟩
  obtain ⟨c, hc, hpc⟩ := (Option.any_eq_true _ _).1 hcond
  have h10 : c ≠ 10 := by
    rintro rfl
    simp [hp] at hpc
  obtain ⟨hs'', hne⟩ := hs'.takeDigit hc h10
  exact ⟨hs'', fun _ => hne⟩

/-- A run of digits that begins with one is not empty. -/
theorem Spelled.takeDigits_ne (h : Spelled L s) (hp : p 10 = false) (hc : s.lexer.lastChar = some c)
    (hpc : p c = true) : (s.takeDigits p).spelling ≠ [] := by
  have h10 : c ≠ 10 := by
    rintro rfl
    rw [hp] at hpc
    cases hpc
  have hfirst := h.takeDigit hc h10
  have hcond : (s.lexer.lastChar.any fun c => p c ∨ c = 95) = true := by simp [hc, hpc]
  unfold NumberScan.takeDigits
  rw [Loop.whileFuel, if_pos hcond]
  refine Loop.whileFuel_induct (P := fun s' => SpelledSome L s') ?_ _ hfirst |>.2
  rintro s' hcond' ⟨hs', -⟩
  obtain ⟨d, hd, hpd⟩ := (Option.any_eq_true _ _).1 hcond'
  refine hs'.takeDigit hd ?_
  rintro rfl
  simp [hp] at hpd

/-- A run of digits that begins with something else is empty. -/
theorem takeDigits_eq (hc : s.lexer.lastChar = some c) (hpc : p c = false) (h95 : c ≠ 95) :
    s.takeDigits p = s := by
  have hcond : (s.lexer.lastChar.any fun c => p c ∨ c = 95) = false := by simp [hc, hpc, h95]
  unfold NumberScan.takeDigits
  rw [Loop.whileFuel, if_neg (by rw [hcond]; exact Bool.false_ne_true)]

/-- An error leaves the lexer where it is. -/
theorem meets_raise_of {e : LexError} {Q : Unit → NumberScan → Prop} (h : Spelled L s) :
    Meets (raise e) s Q fun s' => Moves L s'.lexer := by
  simp only [raise, meets_bind, meets_modify, meets_throw]
  exact Moves.trans ⟨_, h⟩ (moves_report _ _)

theorem meets_scanDigitRun_of (h : Spelled L s) (hp : p 10 = false) :
    Meets (scanDigitRun p) s (fun _ s' => s' = s.takeDigits p) fun s' => Moves L s'.lexer := by
  have hrun := (h.takeDigits hp).1
  simp only [scanDigitRun, meets_bind, meets_get, meets_modify, meets_ite, meets_pure]
  exact ⟨fun _ => meets_raise_of hrun,
    fun _ => ⟨fun _ => meets_raise_of hrun, fun _ => trivial⟩⟩

theorem meets_rejectStrayPoint_of (radix alreadyFloat : Bool) (h : Spelled L s) :
    Meets (rejectStrayPoint radix alreadyFloat) s (fun _ s' => s' = s) fun s' => Moves L s'.lexer := by
  simp only [rejectStrayPoint, meets_bind, meets_get, meets_ite, meets_pure]
  exact ⟨fun _ => ⟨fun _ => ⟨fun _ => meets_raise_of h, fun _ => trivial⟩,
    fun _ => meets_raise_of h⟩, fun _ => trivial⟩

theorem isRadixDigit_newline (radix : ℕ) : isRadixDigit radix 10 = false := by
  unfold isRadixDigit
  split
  · rfl
  · split <;> rfl

theorem ne_newline_of_radixOf {radix : ℕ} (h : radixOf c = some radix) : c ≠ 10 := by
  rintro rfl
  cases h

theorem meets_finishNumber {t : Token} (h : SpelledSome L s) {E : NumberScan → Prop} :
    Meets (finishNumber t) s (fun _ s' => Takes L s'.lexer) E := by
  simp only [finishNumber, meets_bind, meets_modify, meets_pure]
  have hend : Takes L s.lexer := ⟨s.spelling, h.2, h.1⟩
  exact hend.trans_moves (.same rfl rfl rfl rfl rfl)

theorem meets_scanRadixNumber_of {radix : ℕ} {d : UInt8} (hc : L.lastChar = some 48)
    (hd : L.peek = some d) (h10 : d ≠ 10) :
    Meets (scanRadixNumber radix) { lexer := L } (fun _ s' => Takes L s'.lexer)
      fun s' => Moves L s'.lexer := by
  have hstart : Spelled L { lexer := L } := ⟨rfl, rfl, rfl, rfl, by simp, id⟩
  obtain ⟨hzero, -⟩ := hstart.takeMark hc (by decide)
  obtain ⟨hmark, hne⟩ := hzero.takeMark hd h10
  simp only [scanRadixNumber, setRadix, meets_bind, meets_modify]
  have hradix : ∀ s : NumberScan, Spelled L s →
      Spelled L { s with lexer := { s.lexer with numLitRadix := radix } } :=
    fun s h => ⟨h.rest, h.line, h.col, h.loc, h.newline, h.sound⟩
  have hdigits := (hradix _ hmark).takeDigits (isRadixDigit_newline radix)
  refine (meets_scanDigitRun_of (hradix _ hmark) (isRadixDigit_newline radix)).mono ?_ fun _ h => h
  rintro _ s rfl
  simp only [meets_get, meets_ite, meets_bind]
  refine ⟨fun _ => ?_, fun _ => ⟨fun _ => ?_, fun _ => ?_⟩⟩
  · exact meets_raise_of hdigits.1
  · exact meets_raise_of hdigits.1
  · refine (meets_rejectStrayPoint_of _ _ hdigits.1).mono ?_ fun _ h => h
    rintro _ s rfl
    exact meets_finishNumber ⟨hdigits.1, hdigits.2 hne⟩

theorem isDigit_newline : isDigit 10 = false := rfl

theorem meets_scanFraction_of (h : Spelled L s)
    (hne : s.spelling ≠ [] ∨ s.lexer.lastChar = some 46 ∧ s.lexer.peek.any isDigit = true) :
    Meets scanFraction s (fun _ s' => SpelledSome L s') fun s' => Moves L s'.lexer := by
  simp only [scanFraction, meets_bind, meets_get, meets_ite, meets_modify, meets_pure]
  refine ⟨fun hpoint => ?_, fun hno => ⟨h, ?_⟩⟩
  · obtain ⟨hclean, hsome⟩ := h.takeClean hpoint.1 (by decide)
    have hdigits := hclean.takeDigits isDigit_newline
    refine (meets_scanDigitRun_of hclean isDigit_newline).mono ?_ fun _ h => h
    rintro _ s rfl
    exact ⟨hdigits.1, hdigits.2 hsome⟩
  · exact hne.resolve_right hno

theorem meets_scanExponent_of (h : SpelledSome L s) :
    Meets scanExponent s (fun _ s' => SpelledSome L s') fun s' => Moves L s'.lexer := by
  have hdigits : ∀ s : NumberScan, SpelledSome L s → SpelledSome L (s.takeDigits isDigit) :=
    fun s hs => ⟨(hs.1.takeDigits isDigit_newline).1, (hs.1.takeDigits isDigit_newline).2 hs.2⟩
  simp only [scanExponent, meets_bind, meets_get, meets_ite, meets_modify, meets_pure]
  refine ⟨fun hmark => ?_, fun _ => h⟩
  have he : SpelledSome L s.takeClean := by
    rcases hmark with hc | hc
    · exact h.1.takeClean hc (by decide)
    · exact h.1.takeClean hc (by decide)
  refine ⟨fun hsign => ?_, fun _ => ?_⟩
  · have hs : SpelledSome L s.takeClean.takeClean := by
      rcases hsign with hc | hc
      · exact he.1.takeClean hc (by decide)
      · exact he.1.takeClean hc (by decide)
    refine (meets_scanDigitRun_of hs.1 isDigit_newline).mono ?_ fun _ h => h
    rintro digits _ rfl
    exact ⟨fun _ => meets_raise_of (hdigits _ hs).1, fun _ => hdigits _ hs⟩
  · refine (meets_scanDigitRun_of he.1 isDigit_newline).mono ?_ fun _ h => h
    rintro digits _ rfl
    exact ⟨fun _ => meets_raise_of (hdigits _ he).1, fun _ => hdigits _ he⟩

theorem meets_scanDecimalNumber_of
    (hstart : L.lastChar.any isDigit = true ∨ L.lastChar = some 46 ∧ L.peek.any isDigit = true) :
    Meets scanDecimalNumber { lexer := L } (fun _ s' => Takes L s'.lexer)
      fun s' => Moves L s'.lexer := by
  let s₀ : NumberScan := { lexer := { L with numLitRadix := 10 } }
  have hs₀ : Spelled L s₀ := ⟨rfl, rfl, rfl, rfl, by simp [s₀], id⟩
  have hrun := (hs₀.takeDigits isDigit_newline).1
  have hfirst : (s₀.takeDigits isDigit).spelling ≠ [] ∨
      (s₀.takeDigits isDigit).lexer.lastChar = some 46 ∧
        (s₀.takeDigits isDigit).lexer.peek.any isDigit = true := by
    rcases hstart with hdigit | ⟨hpoint, hpeek⟩
    · obtain ⟨c, hc, hd⟩ := (Option.any_eq_true _ _).1 hdigit
      exact .inl (hs₀.takeDigits_ne isDigit_newline hc hd)
    · have hsame : s₀.takeDigits isDigit = s₀ := takeDigits_eq (c := 46) hpoint rfl (by decide)
      rw [hsame]
      exact .inr ⟨hpoint, hpeek⟩
  simp only [scanDecimalNumber, setRadix, meets_bind, meets_modify]
  refine (meets_scanDigitRun_of hs₀ isDigit_newline).mono ?_ fun _ h => h
  rintro _ _ rfl
  refine (meets_scanFraction_of hrun hfirst).mono ?_ fun _ h => h
  intro fraction s₁ hs₁
  refine (meets_scanExponent_of hs₁).mono ?_ fun _ h => h
  intro exponent s₂ hs₂
  refine (meets_rejectStrayPoint_of _ _ hs₂.1).mono ?_ fun _ h => h
  rintro _ _ rfl
  exact meets_finishNumber hs₂

theorem meets_scanNumber_of
    (hstart : L.lastChar.any isDigit = true ∨ L.lastChar = some 46 ∧ L.peek.any isDigit = true) :
    Meets scanNumber { lexer := L } (fun _ s' => Takes L s'.lexer) fun s' => Moves L s'.lexer := by
  simp only [scanNumber, meets_bind, meets_get]
  split
  case h_1 radix hradix =>
    split at hradix
    case isTrue h0 =>
      obtain ⟨d, hd, hr⟩ := Option.bind_eq_some_iff.1 hradix
      exact meets_scanRadixNumber_of h0 hd (ne_newline_of_radixOf hr)
    case isFalse => cases hradix
  case h_2 => exact meets_scanDecimalNumber_of hstart

end Numbers

/-- What a scan that begins at a token does to the lexer, whether it returns or raises. -/
def TakesOrRaises (L : LexerState) (r : EStateM.Result LexError LexerState Token) : Prop :=
  Meets (fun _ => r) L (fun _ L' => Takes L L') fun L' => Moves L L'

theorem takesOrRaises_runNumber {L : LexerState}
    (hstart : L.lastChar.any isDigit = true ∨ L.lastChar = some 46 ∧ L.peek.any isDigit = true) :
    TakesOrRaises L (runNumber L) := by
  have hnumber := meets_scanNumber_of hstart
  unfold TakesOrRaises runNumber
  split
  case h_1 t s heq => exact hnumber.ok heq
  case h_2 e s heq => exact hnumber.error heq

/-! ### White space and comments -/

section Blanks

variable {L L' : LexerState} {p : UInt8 → Bool} {f : LexerState → LexerState} {s text : Bytes}

theorem Moves.sound (h : Moves L L') (hL : Sound L) : Sound L' := by
  obtain ⟨bs, h⟩ := h
  exact h.sound hL

/-- A loop whose rounds read one byte passes over what its condition accepts. -/
theorem remaining_loopWhile
    (hbody : ∀ L c, L.lastChar = some c → p c = true →
      remaining (f L) = L.source ∧ Sound (f L)) (hL : Sound L) :
    remaining (L.loopWhile p f) = (remaining L).dropWhile p := by
  have hsame : (remaining (L.loopWhile p f)).dropWhile p = (remaining L).dropWhile p ∧
      Sound (L.loopWhile p f) := by
    refine Loop.whileFuel_induct
      (P := fun L' => (remaining L').dropWhile p = (remaining L).dropWhile p ∧ Sound L') ?_ _
      ⟨rfl, hL⟩
    rintro L' hcond ⟨hL', -⟩
    obtain ⟨c, hc, hpc⟩ := (Option.any_eq_true _ _).1 hcond
    obtain ⟨hrest, hsound⟩ := hbody L' c hc hpc
    refine ⟨?_, hsound⟩
    rw [hrest, ← hL', remaining_of_lastChar hc, List.dropWhile_cons_of_pos hpc]
  have hstop : (L.loopWhile p f).lastChar.any p = false := by
    refine Loop.whileFuel_stop (p := fun L => L.lastChar.any p) (fun L => (remaining L).length)
      ?_ ?_ ?_
    · intro L' hcond
      obtain ⟨c, hc, hpc⟩ := (Option.any_eq_true _ _).1 hcond
      rw [(hbody L' c hc hpc).1, remaining_of_lastChar hc]
      exact Nat.lt_succ_self _
    · unfold remaining
      cases L.lastChar <;> simp
    · intro L' hzero
      unfold remaining at hzero
      cases hc : L'.lastChar with
      | none => rfl
      | some c => simp [hc] at hzero
  rw [← hsame.1]
  cases hc : (L.loopWhile p f).lastChar with
  | none => simp [remaining, hc, hsame.2 hc]
  | some c =>
    rw [hc, Option.any_some] at hstop
    rw [remaining_of_lastChar hc, List.dropWhile_cons_of_neg (by simp [hstop])]

/-- Between two tokens: what is left is the end of the text, and the place is that of its first
byte. -/
structure Placed (text : Bytes) (L : LexerState) : Prop where
  place : ∃ before, 32 :: text = before ++ remaining L ∧
    (remaining L ≠ [] → (L.curLine, L.curCol) = before.foldl nextPos (1, 0))
  sound : Sound L

theorem placed_openLexer (text : Bytes) (filename : String) :
    Placed text (openLexer text filename) where
  place := ⟨[], rfl, fun _ => rfl⟩
  sound := by rintro ⟨⟩

/-- Bytes on one line keep the lexer placed. -/
theorem Placed.moves (h : Placed text L) (hmove : Moves L L') : Placed text L' := by
  obtain ⟨⟨before, htext, hplace⟩, hsound⟩ := h
  refine ⟨?_, hmove.sound hsound⟩
  obtain ⟨bs, hbs⟩ := hmove
  refine ⟨before ++ bs, by rw [htext, hbs.rest, List.append_assoc], fun hne => ?_⟩
  have hL : remaining L ≠ [] := by simp [hbs.rest, hne]
  rw [List.foldl_append, ← hplace hL, foldl_nextPos_of_line hbs.newline, hbs.line, hbs.col]

theorem remaining_skipSpaceRound (L : LexerState) :
    remaining (skipSpaceRound L) = L.source ∧ Sound (skipSpaceRound L) := by
  have hlast : (skipSpaceRound L).lastChar = L.source.head? := by
    unfold skipSpaceRound
    dsimp only
    split <;> split <;> rfl
  have hsource : (skipSpaceRound L).source = L.source.tail := by
    unfold skipSpaceRound
    dsimp only
    split <;> split <;> rfl
  refine ⟨?_, fun hnone => ?_⟩
  · rw [remaining, hlast, hsource]
    cases L.source <;> rfl
  · rw [hlast, List.head?_eq_none_iff] at hnone
    rw [hsource, hnone]
    rfl

theorem remaining_skipSpace (h : Sound L) :
    remaining (skipSpace L) = (remaining L).dropWhile isSpace :=
  remaining_loopWhile (fun L _ _ _ => remaining_skipSpaceRound L) h

theorem Placed.skipSpaceRound {c : UInt8} (h : Placed text L) (hc : L.lastChar = some c) :
    Placed text (skipSpaceRound L) := by
  obtain ⟨⟨before, htext, hplace⟩, -⟩ := h
  obtain ⟨hrest, hsound⟩ := remaining_skipSpaceRound L
  rw [remaining_of_lastChar hc] at htext hplace
  refine ⟨⟨before ++ [c], ?_, fun hne => ?_⟩, hsound⟩
  · rw [hrest, htext, List.append_assoc]
    rfl
  · have hhead : L.source.head? ≠ none := by simpa [hrest] using hne
    rw [List.foldl_append, ← hplace (by simp)]
    -- the newline that is passed over begins a line, and the byte after it is in column one
    by_cases h10 : c = 10
    · subst h10
      simp [Lexer.skipSpaceRound, hc, hhead, nextPos]
    · simp [Lexer.skipSpaceRound, hc, hhead, nextPos, h10]

theorem Placed.skipSpace (h : Placed text L) : Placed text (skipSpace L) := by
  refine Loop.whileFuel_induct (P := Placed text) ?_ _ h
  intro L' hcond hL'
  obtain ⟨c, hc, -⟩ := (Option.any_eq_true _ _).1 hcond
  exact hL'.skipSpaceRound hc

theorem moves_skipComment (hc : L.lastChar = some 47) : Moves L (skipComment L) := by
  refine (takes_advance hc (by decide)).moves.trans (moves_loopWhile (fun L c hc hp => ?_) _)
  refine (takes_advance hc ?_).moves
  rintro rfl
  cases hp

theorem remaining_skipComment (hpeek : L.peek = some 47) :
    ∃ s, L.source = 47 :: s ∧ remaining (skipComment L) = s.dropWhile isCommentChar := by
  obtain ⟨s, hs⟩ : ∃ s, L.source = 47 :: s := List.head?_eq_some_iff.1 hpeek
  have hloop := remaining_loopWhile (p := isCommentChar) (f := advance)
    (fun L _ _ _ => ⟨remaining_advance L, sound_advance L⟩) (sound_advance L)
  refine ⟨s, hs, hloop.trans ?_⟩
  rw [remaining_advance, hs]
  rfl

/-- The rounds that a text needs at most are as many as its bytes. -/
theorem dropBlanksIn_eq {n m : ℕ} (hn : s.length ≤ n) (hm : s.length ≤ m) :
    dropBlanksIn n s = dropBlanksIn m s := by
  induction n generalizing m s with
  | zero =>
    obtain rfl := List.length_eq_zero_iff.1 (Nat.le_zero.1 hn)
    cases m <;> rfl
  | succ n ih =>
    cases m with
    | zero =>
      obtain rfl := List.length_eq_zero_iff.1 (Nat.le_zero.1 hm)
      rfl
    | succ m =>
      unfold dropBlanksIn
      have hspace := (List.dropWhile_suffix isSpace (l := s)).length_le
      split
      case h_1 s' heq =>
        have hcomment := (List.dropWhile_suffix isCommentChar (l := s')).length_le
        rw [heq, List.length_cons, List.length_cons] at hspace
        exact ih (by omega) (by omega)
      case h_2 => rfl

theorem dropBlanks_eq {n : ℕ} (hn : s.length ≤ n) : dropBlanks s = dropBlanksIn n s :=
  dropBlanksIn_eq (Nat.le_succ _) hn

/-! ### A scan -/

theorem takesOrRaises_returns {r : Token × LexerState} (h : Takes L r.2) :
    TakesOrRaises L (returns r) := h

/-- Every branch that begins at a token takes bytes of its line. -/
theorem takesOrRaises_gettokScan {n : ℕ} {c : UInt8} (hL' : stampLoc (skipSpace L) = L')
    (hc : L'.lastChar = some c) (h10 : c ≠ 10) (hno : ¬ (L'.lastChar = some 47 ∧ L'.peek = some 47))
    (hs : escapesNewline (remaining L') = false) : TakesOrRaises L' (gettokScan (n + 1) L) := by
  unfold gettokScan
  dsimp only
  rw [hL']
  split
  case isTrue hname =>
    exact takesOrRaises_returns (takes_scanIdentifier hc (by simpa [hc] using hname))
  split
  case isTrue hquote => exact takesOrRaises_returns (takes_scanString hquote hs)
  split
  case isTrue hquote => exact takesOrRaises_returns (takes_scanChar hquote hs)
  split
  case isTrue hdots => exact takesOrRaises_returns (takes_scanDots hdots.1 hdots.2)
  split
  case isTrue hdigit => exact takesOrRaises_runNumber hdigit
  split
  case h_1 op hfind =>
    have hlast : L'.lastChar = some op.1 := by simpa using List.find?_some hfind
    exact takesOrRaises_returns
      ((isOperator_of_mem op (List.mem_of_find?_eq_some hfind)).takes hlast)
  case h_2 =>
    split
    case isTrue hslash =>
      have hfirst := takes_advance hslash.1 (by decide)
      exact takesOrRaises_returns
        (hfirst.trans_moves (takes_advance (L := L'.advance) hslash.2 (by decide)).moves)
    case isFalse => exact takesOrRaises_returns (takes_scanOther hc h10)

/-- The scan has found a token at the beginning of `s`, and has stamped its place. -/
def Finds (text s : Bytes) (L : LexerState) : Prop :=
  ∃ before bs, bs ≠ [] ∧ 10 ∉ bs ∧ 32 :: text = before ++ s ∧ s = bs ++ remaining L ∧
    (L.curLoc.line, L.curLoc.col) = before.foldl nextPos (1, 0) ∧
    L.curLine = L.curLoc.line ∧ L.curCol = L.curLoc.col + bs.length

/-- What a scan does, when what it finds is no literal with an escape that takes a newline. -/
structure Scans (text s : Bytes) (L' : LexerState) : Prop where
  placed : Placed text L'
  suffix : remaining L' <:+ s

theorem Moves.suffix (h : Moves L L') : remaining L' <:+ remaining L := by
  obtain ⟨bs, h⟩ := h
  exact ⟨bs, h.rest.symm⟩

theorem dropBlanksIn_comment {n : ℕ} {s' : Bytes} (h : s.dropWhile isSpace = 47 :: 47 :: s') :
    dropBlanksIn (n + 1) s = dropBlanksIn n (s'.dropWhile isCommentChar) := by
  rw [dropBlanksIn, h]
  rfl

theorem dropBlanksIn_token {n : ℕ} (h : ∀ s', s.dropWhile isSpace ≠ 47 :: 47 :: s') :
    dropBlanksIn (n + 1) s = s.dropWhile isSpace := by
  unfold dropBlanksIn
  split
  case h_1 s' heq => exact absurd heq (h s')
  case h_2 => rfl

theorem gettokScan_comment {n : ℕ} (hL' : stampLoc (skipSpace L) = L')
    (hc : L'.lastChar = some 47) (hpeek : L'.peek = some 47) :
    gettokScan (n + 1) L =
      if (skipComment L').lastChar ≠ none then gettokScan n (skipComment L')
      else returns (scanOther (skipComment L')) := by
  have hdigit : isDigit 47 = false := rfl
  rw [gettokScan]
  simp [hL', hc, hpeek, isAlpha, hdigit, operators]

theorem gettokScan_end {fuel : ℕ} (hL' : stampLoc (skipSpace L) = L') (hc : L'.lastChar = none) :
    gettokScan (fuel + 1) L = .ok .tokEof L' := by
  rw [gettokScan]
  simp [hL', hc, scanOther, returns, operators]

theorem meets_gettokScan (fuel : ℕ) (h : Placed text L) (hfuel : (remaining L).length ≤ fuel)
    (hs : escapesNewline (dropBlanks (remaining L)) = false) :
    Meets (gettokScan fuel) L
      (fun _ L' => Scans text (dropBlanks (remaining L)) L' ∧
        (dropBlanks (remaining L) ≠ [] → Finds text (dropBlanks (remaining L)) L'))
      fun L' => Scans text (dropBlanks (remaining L)) L' := by
  induction fuel generalizing L with
  | zero =>
    have hnil : remaining L = [] := List.length_eq_zero_iff.1 (Nat.le_zero.1 hfuel)
    rw [hnil]
    exact ⟨⟨h, by rw [hnil]; exact List.nil_suffix⟩, fun hne => absurd rfl hne⟩
  | succ fuel ih =>
    obtain ⟨L₁, hL₁⟩ : ∃ L₁, stampLoc (skipSpace L) = L₁ := ⟨_, rfl⟩
    have hplaced : Placed text L₁ := by
      rw [← hL₁]
      exact ⟨h.skipSpace.place, h.skipSpace.sound⟩
    have hrest : remaining L₁ = (remaining L).dropWhile isSpace := by
      rw [← hL₁]
      exact remaining_skipSpace h.sound
    have hlen := (List.dropWhile_suffix isSpace (l := remaining L)).length_le
    rw [← hrest] at hlen
    rw [dropBlanks_eq hfuel] at hs ⊢
    by_cases hcomment : L₁.lastChar = some 47 ∧ L₁.peek = some 47
    · obtain ⟨s, hsource, hcut⟩ := remaining_skipComment hcomment.2
      have hslashes : remaining L₁ = 47 :: 47 :: s := by
        rw [remaining_of_lastChar hcomment.1, hsource]
      have hplaced₂ := hplaced.moves (moves_skipComment hcomment.1)
      have hfuel₂ : (remaining (skipComment L₁)).length ≤ fuel := by
        have hcutlen := (List.dropWhile_suffix isCommentChar (l := s)).length_le
        rw [hslashes, List.length_cons, List.length_cons] at hlen
        rw [hcut]
        omega
      rw [dropBlanksIn_comment (hrest.symm.trans hslashes), ← hcut, ← dropBlanks_eq hfuel₂] at hs ⊢
      have hscan := gettokScan_comment (n := fuel) hL₁ hcomment.1 hcomment.2
      by_cases hend : (skipComment L₁).lastChar = none
      · have hnil : remaining (skipComment L₁) = [] := by
          simp [remaining, hend, hplaced₂.sound hend]
        have hother : scanOther (skipComment L₁) = (.tokEof, skipComment L₁) := by
          rw [scanOther, hend]
        unfold Meets
        rw [hscan, if_neg (not_not.2 hend), hother, hnil]
        exact ⟨⟨hplaced₂, by rw [hnil]; exact List.nil_suffix⟩, fun hne => absurd rfl hne⟩
      · unfold Meets
        rw [hscan, if_pos hend]
        exact ih hplaced₂ hfuel₂ hs
    · have htoken : ∀ s', (remaining L).dropWhile isSpace ≠ 47 :: 47 :: s' := by
        rw [← hrest]
        intro s' hs'
        cases hc : L₁.lastChar with
        | none => simp [remaining, hc, hplaced.sound hc] at hs'
        | some c =>
          rw [remaining_of_lastChar hc, List.cons.injEq] at hs'
          exact hcomment ⟨by rw [hc, hs'.1], by rw [peek, hs'.2]; rfl⟩
      rw [dropBlanksIn_token htoken, ← hrest] at hs ⊢
      cases hc : L₁.lastChar with
      | none =>
        have hnil : remaining L₁ = [] := by simp [remaining, hc, hplaced.sound hc]
        unfold Meets
        rw [gettokScan_end hL₁ hc]
        exact ⟨⟨hplaced, List.suffix_rfl⟩, fun hne => absurd hnil hne⟩
      | some c =>
        have h10 : c ≠ 10 := by
          rintro rfl
          rw [remaining_of_lastChar hc] at hrest
          have hhead := List.head?_dropWhile_not isSpace (remaining L)
          rw [← hrest, List.head?_cons] at hhead
          exact absurd hhead (by decide)
        have hscan := takesOrRaises_gettokScan (n := fuel) hL₁ hc h10 hcomment hs
        refine Meets.mono (x := gettokScan (fuel + 1)) (s := L) hscan ?_ ?_
        · rintro t L' htakes
          refine ⟨⟨hplaced.moves htakes.moves, htakes.moves.suffix⟩, fun _ => ?_⟩
          obtain ⟨bs, hne, hbs⟩ := htakes
          obtain ⟨before, htext, hplace⟩ := hplaced.place
          have hloc : L₁.curLoc.line = L₁.curLine ∧ L₁.curLoc.col = L₁.curCol := by
            rw [← hL₁]
            exact ⟨rfl, rfl⟩
          have hstart : remaining L₁ ≠ [] := by simp [hbs.rest, hne]
          refine ⟨before, bs, hne, hbs.newline, htext, hbs.rest, ?_, ?_, ?_⟩
          · rw [hbs.loc, hloc.1, hloc.2, hplace hstart]
          · rw [hbs.loc, hloc.1, hbs.line]
          · rw [hbs.loc, hloc.2, hbs.col]
        · intro L' hmoves
          exact ⟨hplaced.moves hmoves, hmoves.suffix⟩

theorem head?_dropBlanks (s : Bytes) : (dropBlanks s).head?.any isSpace = false := by
  have hround : ∀ (n : ℕ) (s : Bytes), s.length ≤ n →
      (dropBlanksIn n s).head?.any isSpace = false := by
    intro n
    induction n with
    | zero =>
      intro s hs
      rw [List.length_eq_zero_iff.1 (Nat.le_zero.1 hs)]
      rfl
    | succ n ih =>
      intro s hs
      have hlen := (List.dropWhile_suffix isSpace (l := s)).length_le
      unfold dropBlanksIn
      split
      case h_1 s' heq =>
        have hcut := (List.dropWhile_suffix isCommentChar (l := s')).length_le
        rw [heq, List.length_cons, List.length_cons] at hlen
        exact ih _ (by omega)
      case h_2 =>
        have hhead := List.head?_dropWhile_not isSpace s
        split at hhead
        case h_1 c heq => simpa [heq] using hhead
        case h_2 heq => simp [heq]
  exact hround _ s (Nat.le_succ _)

/-! ### `gettok` -/

/-- A token stands at the bytes of the text from `start` to `stop`. -/
structure Stands (text : Bytes) (start stop : ℕ) (loc : SourceLocation) : Prop where
  lt : start < stop
  le : stop ≤ text.length
  line : loc.line = lineAfter (text.take start)
  col : loc.col = colAfter (text.take start)
  endLine : loc.endLine = lineAfter (text.take stop)
  endCol : loc.endCol = colAfter (text.take stop)

/-- Where a scan finds the first byte of its token. -/
def startOf (text : Bytes) (L : LexerState) : ℕ := text.length - (dropBlanks (remaining L)).length

/-- Where what has been passed over ends. -/
def stopOf (text : Bytes) (L : LexerState) : ℕ := text.length - (remaining L).length

theorem Finds.stands (h : Finds text (dropBlanks s) L) :
    Stands text (text.length - (dropBlanks s).length) (stopOf text L)
      { L.curLoc with endLine := L.curLine, endCol := L.curCol } := by
  obtain ⟨before, bs, hne, h10, htext, hs, hloc, hline, hcol⟩ := h
  -- the space that the lexer begins at is passed over
  obtain ⟨b, rfl⟩ : ∃ b, before = 32 :: b := by
    cases before with
    | nil =>
      have hhead := head?_dropBlanks s
      rw [← List.nil_append (dropBlanks s), ← htext] at hhead
      exact absurd hhead (by simp [isSpace])
    | cons c b =>
      rw [List.cons_append, List.cons.injEq] at htext
      exact ⟨b, by rw [htext.1]⟩
  have htext' : text = b ++ (bs ++ remaining L) := by
    rw [← hs]
    simpa using htext
  have hstart : text.length - (dropBlanks s).length = b.length := by
    rw [htext', hs, List.length_append]
    omega
  have hstop : stopOf text L = (b ++ bs).length := by
    rw [stopOf, htext', ← List.append_assoc, List.length_append]
    omega
  have hat : (L.curLoc.line, L.curLoc.col) = (lineAfter b, colAfter b) := by
    rw [hloc, ← foldl_nextPos]
    rfl
  have hend : (lineAfter (b ++ bs), colAfter (b ++ bs)) = (L.curLine, L.curCol) := by
    rw [← foldl_nextPos, List.foldl_append, foldl_nextPos, ← hat, foldl_nextPos_of_line h10, hline,
      hcol]
  have hpos := List.length_pos_iff.2 hne
  rw [Prod.mk.injEq] at hat hend
  rw [hstart, hstop]
  refine ⟨by rw [List.length_append]; omega, ?_, ?_, ?_, ?_, ?_⟩
  · rw [htext', ← List.append_assoc]
    exact (List.prefix_append _ _).length_le
  · rw [htext', List.take_left' rfl, hat.1]
  · rw [htext', List.take_left' rfl, hat.2]
  · rw [htext', ← List.append_assoc, List.take_left' rfl, hend.1]
  · rw [htext', ← List.append_assoc, List.take_left' rfl, hend.2]

theorem meets_gettok (h : Placed text L)
    (hs : escapesNewline (dropBlanks (remaining L)) = false) :
    Meets gettok L
      (fun _ L' => Scans text (dropBlanks (remaining L)) L' ∧
        (dropBlanks (remaining L) ≠ [] → Stands text (startOf text L) (stopOf text L') L'.curLoc))
      fun L' => Scans text (dropBlanks (remaining L)) L' := by
  let L₀ : LexerState :=
    { L with prevTokEndLine := L.curLoc.endLine, prevTokEndCol := L.curLoc.endCol }
  have hplaced : Placed text L₀ := ⟨h.place, h.sound⟩
  have hfuel : (remaining L₀).length ≤ L.source.length + 1 := by
    unfold remaining
    cases L₀.lastChar <;> simp [L₀]
  have hscan := meets_gettokScan _ hplaced hfuel hs
  unfold Meets gettok
  split
  case h_1 t L' heq =>
    dsimp only at heq
    split at heq
    case h_1 t₁ L₁ hgot =>
      injection heq with ht hL
      subst ht hL
      obtain ⟨⟨hplace, hsuffix⟩, hfinds⟩ := hscan.ok hgot
      exact ⟨⟨⟨hplace.place, hplace.sound⟩, hsuffix⟩, fun hne => (hfinds hne).stands⟩
    case h_2 => cases heq
  case h_2 e L' heq =>
    dsimp only at heq
    split at heq
    case h_1 => cases heq
    case h_2 e₁ L₁ hgot =>
      injection heq with he hL
      subst he hL
      exact hscan.error hgot

end Blanks

/-! ### Whole texts -/

section Texts

variable {text : Bytes} {filename : String} {n k : ℕ} {t : LexedToken}

/-- The lexer of a text before scan `k`. -/
def lexerAt (text : Bytes) (filename : String) (k : ℕ) : LexerState :=
  scanned (openLexer text filename) k

theorem lexerAt_succ (text : Bytes) (filename : String) (k : ℕ) :
    lexerAt text filename (k + 1) = after (lexerAt text filename k) :=
  scanned_succ _ k

/-- Scan `k` finds a literal with an escape that takes a newline. -/
def takesNewline (text : Bytes) (filename : String) (k : ℕ) : Bool :=
  escapesNewline (dropBlanks (remaining (lexerAt text filename k)))

/-- The first byte of the token of scan `k`, by its place in the text. -/
def tokenStart (text : Bytes) (filename : String) (k : ℕ) : ℕ :=
  startOf text (lexerAt text filename k)

/-- One past its last. -/
def tokenStop (text : Bytes) (filename : String) (k : ℕ) : ℕ :=
  stopOf text (lexerAt text filename (k + 1))

/-- Every token of the first `n` scans that has a byte says where it stands, and they stand one
after the other. -/
structure TruePositions (text : Bytes) (filename : String) (n : ℕ) : Prop where
  stands : ∀ k < n, ∀ t, tokenAt (openLexer text filename) k = some t →
    tokenStart text filename k < text.length →
      Stands text (tokenStart text filename k) (tokenStop text filename k) t.loc
  apart : ∀ k < n, ∀ j < k, tokenStop text filename j ≤ tokenStart text filename k
  increasing : ∀ k < n, ∀ j < k, ∀ t u, tokenAt (openLexer text filename) j = some t →
    tokenStart text filename j < text.length → tokenAt (openLexer text filename) k = some u →
    tokenStart text filename k < text.length →
      toLex (t.loc.endLine, t.loc.endCol) ≤ toLex ((u.loc.line : ℤ), (u.loc.col : ℤ))

/-- What a scan does to a placed lexer, whether it returns or raises. -/
theorem scans_after {L : LexerState} (h : Placed text L)
    (hs : escapesNewline (dropBlanks (remaining L)) = false) :
    Scans text (dropBlanks (remaining L)) (after L) := by
  have hget := meets_gettok h hs
  unfold after
  split
  case h_1 t L' heq => exact (hget.ok heq).1
  case h_2 e L' heq => exact hget.error heq

/-- By induction on the scans. -/
theorem placed_lexerAt (h : ∀ k < n, takesNewline text filename k = false) :
    Placed text (lexerAt text filename n) := by
  induction n with
  | zero => exact placed_openLexer text filename
  | succ n ih =>
    have hplaced := ih fun k hk => h k (by omega)
    rw [lexerAt_succ]
    exact (scans_after hplaced (h n (by omega))).placed

theorem dropBlanks_suffix (s : Bytes) : dropBlanks s <:+ s := by
  have hround : ∀ (n : ℕ) (s : Bytes), dropBlanksIn n s <:+ s := by
    intro n
    induction n with
    | zero => exact fun s => List.suffix_rfl
    | succ n ih =>
      intro s
      have hspace := List.dropWhile_suffix isSpace (l := s)
      unfold dropBlanksIn
      split
      case h_1 s' heq =>
        have hcomment : s' <:+ s := ⟨_, by
          rw [← List.takeWhile_append_dropWhile (p := isSpace) (l := s), heq,
            List.append_cons, List.append_cons]⟩
        exact (ih _).trans ((List.dropWhile_suffix isCommentChar).trans hcomment)
      case h_2 => exact hspace
  exact hround _ s

/-- What is left gets shorter from scan to scan. -/
theorem tokenStop_le_tokenStart (h : ∀ j < n, takesNewline text filename j = false) {j : ℕ}
    (hk : k < n) (hj : j < k) : tokenStop text filename j ≤ tokenStart text filename k := by
  have hshort : ∀ m, j + 1 ≤ m → m ≤ k →
      remaining (lexerAt text filename m) <:+ remaining (lexerAt text filename (j + 1)) := by
    intro m hjm
    induction m, hjm using Nat.le_induction with
    | base => exact fun _ => List.suffix_rfl
    | succ m hjm ih =>
      intro hmk
      have hplaced := placed_lexerAt (n := m) fun i hi => h i (by omega)
      have hscan := (scans_after hplaced (h m (by omega))).suffix
      rw [← lexerAt_succ] at hscan
      exact (hscan.trans (dropBlanks_suffix _)).trans (ih (by omega))
  have hlen := ((dropBlanks_suffix _).trans (hshort k (by omega) le_rfl)).length_le
  unfold tokenStop tokenStart stopOf startOf
  omega

theorem Stands.before {start stop start' stop' : ℕ} {loc loc' : SourceLocation}
    (h : Stands text start stop loc) (h' : Stands text start' stop' loc') (hle : stop ≤ start') :
    toLex (loc.endLine, loc.endCol) ≤ toLex ((loc'.line : ℤ), (loc'.col : ℤ)) := by
  have htake : text.take start' = text.take stop ++ (text.take start').drop stop := by
    have hpart := List.take_append_drop stop (text.take start')
    rwa [List.take_take, min_eq_left hle, eq_comm] at hpart
  have hplace := toLex_le_foldl_nextPos ((text.take start').drop stop)
    ((text.take stop).foldl nextPos (1, 1))
  rw [← List.foldl_append, ← htake, foldl_nextPos, foldl_nextPos, Prod.Lex.toLex_le_toLex] at hplace
  rw [h.endLine, h.endCol, h'.line, h'.col, Prod.Lex.toLex_le_toLex]
  dsimp only at hplace ⊢
  exact_mod_cast hplace

/-- Every token has its true position, as long as no literal has an escape that takes a newline. -/
theorem truePositions (text : Bytes) (filename : String) (n : ℕ)
    (h : ∀ k < n, takesNewline text filename k = false) : TruePositions text filename n := by
  have hstands : ∀ k < n, ∀ t, tokenAt (openLexer text filename) k = some t →
      tokenStart text filename k < text.length →
        Stands text (tokenStart text filename k) (tokenStop text filename k) t.loc := by
    intro k hk t ht hlt
    have hplaced := placed_lexerAt (n := k) fun j hj => h j (by omega)
    obtain ⟨hget, hcap⟩ := gettok_of_tokenAt ht
    have hne : dropBlanks (remaining (lexerAt text filename k)) ≠ [] := by
      intro hnil
      rw [tokenStart, startOf, hnil] at hlt
      exact absurd hlt (by simp)
    have hloc : t.loc = (lexerAt text filename (k + 1)).curLoc := by
      rw [hcap]
      rfl
    rw [hloc]
    exact ((meets_gettok hplaced (h k hk)).ok hget).2 hne
  refine ⟨hstands, fun k hk j hj => tokenStop_le_tokenStart h hk hj, ?_⟩
  intro k hk j hj t u ht htlt hu hult
  exact (hstands j (by omega) t ht htlt).before (hstands k hk u hu hult)
    (tokenStop_le_tokenStart h hk hj)

/-- A malformed number, a string that is not closed, an unknown escape, and what comes after
each. -/
theorem truePositions_sample :
    TruePositions (bytes "1.2.3 \"a\n// b\n'\\q' 0b2 y") "f.tr" 9 :=
  truePositions _ _ _ (by decide +kernel)

/-- A newline right after a backslash is passed over with its literal and never counted: the `y` of
the second line is said to stand on the first. -/
theorem not_truePositions_escaped_newline :
    ¬ TruePositions (bytes "\"\\\nx\" y") "f.tr" 2 := by
  intro h
  have hsaid : (tokenAt (openLexer (bytes "\"\\\nx\" y") "f.tr") 1).map (fun t => t.loc.line) =
      some 1 := by decide +kernel
  obtain ⟨t, ht, hline⟩ := Option.map_eq_some_iff.1 hsaid
  have hstart : tokenStart (bytes "\"\\\nx\" y") "f.tr" 1 = 6 := by decide +kernel
  have hstands := h.stands 1 (by decide) t ht (by rw [hstart]; decide +kernel)
  have htrue := hstands.line
  rw [hstart, hline] at htrue
  exact absurd htrue (by decide +kernel)

end Texts


end Lexer

end TurfLang
