import TurfLang.Lib.Loop
import TurfLang.Std.Strings

/-!
# `src/frontend/Lexer.cpp`: `gettok`

The lexer reads its stream byte by byte: `LastChar` is the byte it looks at, what is after that is
still in the stream, and `CurLine` and `CurCol` say where `LastChar` stands. A malformed number is
raised, which leaves `gettok` by an exception and keeps what has been read; the other lexical
errors are recorded and the token is returned.
-/

namespace TurfLang

namespace Lexer

open Strings

/-- `enum Token`; `char` is a byte that stands for itself. -/
inductive Token
  | tokEof | tokNumber | tokIdentifier | tokAssign | tokElse | tokIf | tokWhile | tokEq
  | tokNeq | tokLeq | tokGeq | tokIntLiteral | tokBoolLiteral | tokTypeInt | tokTypeDouble
  | tokTypeBool | tokStringLiteral | tokTypeString | tokAnd | tokOr | tokTypeVoid | tokReturn
  | tokFn | tokBreak | tokContinue | tokPlusAssign | tokMinusAssign | tokMulAssign
  | tokDivAssign | tokModAssign | tokPlusPlus | tokMinusMinus | tokFor | tokIn | tokStep
  | tokRange | tokElseif | tokStruct | tokSelf | tokSizeof | tokImport | tokAt | tokNull
  | tokMutable | tokImmutable | tokColon | tokTo | tokGive | tokOtherwise | tokExtern | tokPtr
  | tokEllipsis | tokScope | tokCompare | tokMatches | tokDone | tokPower | tokEnum | tokLshift
  | tokRshift | tokExport | tokStatic | tokTypeChar | tokCharLiteral | tokOperator
  | tokTypeInt32 | tokError | tokRecover | tokProduce | tokRun | tokAs | tokDo | tokAndAssign
  | tokOrAssign | tokXorAssign | tokLshiftAssign | tokRshiftAssign | tokPowerAssign
  | tokMachine | tokArrow | tokUnsafe | tokGuess | tokDefer | tokPub | tokWildcard | tokTry
  | tokCallerLocation
  | char (c : UInt8)
  deriving DecidableEq

/-- `SourceLocation`; an end of -1 has not been recorded. -/
structure SourceLocation where
  line : ℕ
  col : ℕ
  filename : String := ""
  endLine : ℤ := -1
  endCol : ℤ := -1
  deriving DecidableEq

/-- `MalformedNumberError::Kind`. -/
inductive MalformedKind
  | secondPoint
  | trailingPoint
  | radixPoint
  deriving DecidableEq

/-- The errors of the lexer, each with what its text is made of. -/
inductive LexError
  | unknownEscape (loc : SourceLocation) (c : UInt8) (inString : Bool)
  | unterminatedString (loc : SourceLocation)
  | emptyChar (loc : SourceLocation)
  | unterminatedChar (loc : SourceLocation)
  | manyChars (loc : SourceLocation)
  | misplacedSeparator (loc : SourceLocation) (spelling : Bytes) (leading : Bool)
  | malformedNumber (loc : SourceLocation) (spelling : Bytes) (kind : MalformedKind)
  | invalidRadixDigit (loc : SourceLocation) (badDigit : UInt8) (radix : ℕ) (spelling : Bytes)
  | malformedRadixPrefix (loc : SourceLocation) (spelling : Bytes)
  | malformedExponent (loc : SourceLocation) (spelling : Bytes)
  deriving DecidableEq

/-- `LexedToken`: what `gettok` leaves in the lexer that describes one token. -/
structure LexedToken where
  tok : Token
  identifierStr : Bytes
  stringVal : Bytes
  numLitSpelling : Bytes
  numLitClean : Bytes
  numLitRadix : ℕ
  boolVal : Bool
  charVal : UInt8
  loc : SourceLocation
  prevTokEndLine : ℤ
  prevTokEndCol : ℤ
  deriving DecidableEq

/-- `LexerState` but for `Lookahead`, which `gettok` never reads. The stream is what it has left to
read, a `LastChar` of `none` is `EOF`, and `reported` is what the `DiagnosticEngine` has been
given. -/
structure LexerState where
  source : Bytes
  filename : String := ""
  lastChar : Option UInt8 := some 32
  curLine : ℕ := 1
  curCol : ℕ := 0
  curLoc : SourceLocation := { line := 1, col := 0 }
  prevTokEndLine : ℤ := -1
  prevTokEndCol : ℤ := -1
  identifierStr : Bytes := []
  stringVal : Bytes := []
  numLitSpelling : Bytes := []
  numLitClean : Bytes := []
  numLitRadix : ℕ := 10
  boolVal : Bool := false
  charVal : UInt8 := 0
  reported : List LexError := []
  deriving DecidableEq

/-! ### Characters of the C locale -/

def isSpace (c : UInt8) : Bool := c = 32 ∨ 9 ≤ c ∧ c ≤ 13

def isAlpha (c : UInt8) : Bool := 65 ≤ c ∧ c ≤ 90 ∨ 97 ≤ c ∧ c ≤ 122

def isAlnum (c : UInt8) : Bool := isAlpha c ∨ 48 ≤ c ∧ c ≤ 57

def isXDigit (c : UInt8) : Bool := 48 ≤ c ∧ c ≤ 57 ∨ 65 ≤ c ∧ c ≤ 70 ∨ 97 ≤ c ∧ c ≤ 102

/-- What `static_cast<char>` makes of `LastChar`. -/
def byteOf (c : Option UInt8) : UInt8 := c.getD 255

namespace LexerState

/-- `Source->peek()`. -/
def peek (L : LexerState) : Option UInt8 := L.source.head?

/-- `LastChar = Source->get(); CurCol++;`. -/
def advance (L : LexerState) : LexerState :=
  { L with lastChar := L.source.head?, source := L.source.tail, curCol := L.curCol + 1 }

/-- `Source->get(); CurCol++;`: the byte after `LastChar` is passed over. -/
def skipByte (L : LexerState) : LexerState :=
  { L with source := L.source.tail, curCol := L.curCol + 1 }

/-- `LogErrorAt`, and the recording half of `raise`. -/
def report (L : LexerState) (e : LexError) : LexerState := { L with reported := L.reported ++ [e] }

/-- `while (p(LastChar)) body`, where a round reads at least one byte. -/
def loopWhile (p : UInt8 → Bool) (body : LexerState → LexerState) (L : LexerState) : LexerState :=
  Loop.whileFuel (fun L => L.lastChar.any p) body (L.source.length + 1) L

end LexerState

open LexerState

/-! ### White space, names -/

/-- One round of the loop over white space, where a newline begins a line. -/
def skipSpaceRound (L : LexerState) : LexerState :=
  let L := if L.lastChar = some 10 then { L with curLine := L.curLine + 1, curCol := 0 } else L
  let L := { L with lastChar := L.source.head?, source := L.source.tail }
  if L.lastChar = none then L else { L with curCol := L.curCol + 1 }

def skipSpace (L : LexerState) : LexerState := L.loopWhile isSpace skipSpaceRound

/-- `Keywords`. -/
def keywords : List (String × Token) :=
  [("if", .tokIf), ("else", .tokElse), ("while", .tokWhile), ("do", .tokDo),
   ("int", .tokTypeInt), ("float", .tokTypeDouble), ("double", .tokTypeDouble),
   ("bool", .tokTypeBool), ("char", .tokTypeChar), ("true", .tokBoolLiteral),
   ("false", .tokBoolLiteral), ("string", .tokTypeString), ("void", .tokTypeVoid),
   ("return", .tokReturn), ("fn", .tokFn), ("break", .tokBreak), ("continue", .tokContinue),
   ("for", .tokFor), ("in", .tokIn), ("step", .tokStep), ("elseif", .tokElseif),
   ("struct", .tokStruct), ("self", .tokSelf), ("sizeof", .tokSizeof), ("import", .tokImport),
   ("enum", .tokEnum), ("machine", .tokMachine), ("null", .tokNull), ("mutable", .tokMutable),
   ("mut", .tokMutable), ("immutable", .tokImmutable), ("immut", .tokImmutable),
   ("to", .tokTo), ("give", .tokGive), ("otherwise", .tokOtherwise), ("extern", .tokExtern),
   ("ptr", .tokPtr), ("compare", .tokCompare), ("matches", .tokMatches), ("done", .tokDone),
   ("export", .tokExport), ("static", .tokStatic), ("operator", .tokOperator),
   ("int32", .tokTypeInt32), ("error", .tokError), ("recover", .tokRecover), ("try", .tokTry),
   ("produce", .tokProduce), ("run", .tokRun), ("as", .tokAs), ("unsafe", .tokUnsafe),
   ("guess", .tokGuess), ("defer", .tokDefer), ("pub", .tokPub), ("public", .tokPub),
   ("caller_location", .tokCallerLocation)]

def isNameChar (c : UInt8) : Bool := isAlnum c ∨ c = 95

def scanIdentifier (L : LexerState) : Token × LexerState :=
  let L := advance { L with identifierStr := L.lastChar.toList }
  let L := L.loopWhile isNameChar fun L =>
    advance { L with identifierStr := L.identifierStr ++ L.lastChar.toList }
  if L.identifierStr = bytes "_" then (.tokWildcard, L)
  else
    match keywords.find? fun k => L.identifierStr = bytes k.1 with
    | some (_, .tokBoolLiteral) =>
      (.tokBoolLiteral, { L with boolVal := L.identifierStr = bytes "true" })
    | some (_, t) => (t, L)
    | none => (.tokIdentifier, L)

/-! ### Strings and chars -/

/-- The byte that a known escape stands for. -/
def escapeValue : UInt8 → Option UInt8
  | 110 => some 10
  | 116 => some 9
  | 114 => some 13
  | 48 => some 0
  | 97 => some 7
  | 98 => some 8
  | 102 => some 12
  | 118 => some 11
  | 92 => some 92
  | 34 => some 34
  | 39 => some 39
  | _ => none

/-- An escape, up to its last byte; an unknown one is the byte itself. -/
def scanEscape (inString : Bool) (L : LexerState) : UInt8 × LexerState :=
  let escapeLoc : SourceLocation := { line := L.curLine, col := L.curCol }
  let L := advance L
  match L.lastChar.bind escapeValue with
  | some c => (c, L)
  | none => (byteOf L.lastChar, L.report (.unknownEscape escapeLoc (byteOf L.lastChar) inString))

/-- The bytes inside a string literal: not the quote, not a newline. -/
def isStringChar (c : UInt8) : Bool := c ≠ 34 ∧ c ≠ 10

def stringRound (L : LexerState) : LexerState :=
  if L.lastChar = some 92 then
    let r := scanEscape true L
    advance { r.2 with stringVal := r.2.stringVal ++ [r.1] }
  else advance { L with stringVal := L.stringVal ++ L.lastChar.toList }

def scanString (L : LexerState) : Token × LexerState :=
  let L := advance { L with stringVal := [] }
  let L := L.loopWhile isStringChar stringRound
  if L.lastChar = none then (.tokEof, L.report (.unterminatedString L.curLoc))
  else if L.lastChar = some 10 then (.tokStringLiteral, L.report (.unterminatedString L.curLoc))
  else (.tokStringLiteral, advance L)

/-- The bytes that the recovery from a char literal of many characters passes over. -/
def isCharChar (c : UInt8) : Bool := c ≠ 39 ∧ c ≠ 10

/-- The one char of a char literal, or its escape. -/
def scanCharBody (L : LexerState) : LexerState :=
  let r := if L.lastChar = some 92 then scanEscape false L else (byteOf L.lastChar, L)
  advance { r.2 with charVal := r.1 }

/-- The rest of a char literal: its closing quote, or what stands before the quote, the newline or
the end that comes next. -/
def closeChar (L : LexerState) : LexerState :=
  if L.lastChar ≠ some 39 then
    let L := (L.report (.manyChars L.curLoc)).loopWhile isCharChar advance
    if L.lastChar = some 39 then advance L else L
  else advance L

def scanChar (L : LexerState) : Token × LexerState :=
  let L := advance L
  if L.lastChar = some 39 then
    (.tokCharLiteral, { advance (L.report (.emptyChar L.curLoc)) with charVal := 0 })
  else if L.lastChar = none ∨ L.lastChar = some 10 then
    (if L.lastChar = none then .tokEof else .tokCharLiteral, L.report (.unterminatedChar L.curLoc))
  else (.tokCharLiteral, closeChar (scanCharBody L))

/-- `..` and `...`. -/
def scanDots (L : LexerState) : Token × LexerState :=
  let L := skipByte L
  if L.peek = some 46 then (.tokEllipsis, advance (skipByte L)) else (.tokRange, advance L)

/-! ### Numbers -/

/-- The lexer with the locals `Spelling` and `Clean` of the number branch. -/
structure NumberScan where
  lexer : LexerState
  spelling : Bytes := []
  clean : Bytes := []

/-- Code that may raise, and then keeps what it has done to the state. -/
abbrev NumberM := EStateM LexError NumberScan

namespace NumberScan

/-- `Spelling += LastChar; LastChar = Source->get(); CurCol++;`. -/
def takeMark (s : NumberScan) : NumberScan :=
  { s with lexer := s.lexer.advance, spelling := s.spelling ++ s.lexer.lastChar.toList }

/-- The same, where `Clean` gets the character too. -/
def takeClean (s : NumberScan) : NumberScan :=
  { s.takeMark with clean := s.clean ++ s.lexer.lastChar.toList }

/-- One round of `ScanDigitRun`. -/
def takeDigit (s : NumberScan) : NumberScan :=
  if s.lexer.lastChar = some 95 then s.takeMark else s.takeClean

/-- The loop of `ScanDigitRun`. -/
def takeDigits (isDigit : UInt8 → Bool) (s : NumberScan) : NumberScan :=
  Loop.whileFuel (fun s => s.lexer.lastChar.any fun c => isDigit c ∨ c = 95) takeDigit
    (s.lexer.source.length + 1) s

end NumberScan

/-- `raise`, which records the error before it leaves. -/
def raise (e : LexError) : NumberM Unit := do
  modify fun s => { s with lexer := s.lexer.report e }
  throw e

/-- `ScanDigitRun`: the number of digits in a run of digits and separators. -/
def scanDigitRun (isDigit : UInt8 → Bool) : NumberM ℕ := do
  let s ← get
  modify (NumberScan.takeDigits isDigit)
  let s' ← get
  let run := s'.spelling.drop s.spelling.length
  if run.head? = some 95 then
    raise (.misplacedSeparator s'.lexer.curLoc s'.spelling true)
  if run.getLast? = some 95 then
    raise (.misplacedSeparator s'.lexer.curLoc s'.spelling false)
  return s'.clean.length - s.clean.length

/-- `RejectStrayPoint`. -/
def rejectStrayPoint (radix alreadyFloat : Bool) : NumberM Unit := do
  let s ← get
  if s.lexer.lastChar = some 46 ∧ ¬ s.lexer.peek.any (fun c => c = 46 ∨ isAlpha c ∨ c = 95) then
    if radix then
      if s.lexer.peek.any isDigit then
        raise (.malformedNumber s.lexer.curLoc s.spelling .radixPoint)
    else
      raise (.malformedNumber s.lexer.curLoc s.spelling
        (if alreadyFloat then .secondPoint else .trailingPoint))

/-- The radix that the letter of a prefix names. -/
def radixOf (c : UInt8) : Option ℕ :=
  if c = 120 ∨ c = 88 then some 16
  else if c = 98 ∨ c = 66 then some 2
  else if c = 111 ∨ c = 79 then some 8
  else none

/-- The digits of a radix with a prefix. -/
def isRadixDigit (radix : ℕ) (c : UInt8) : Bool :=
  if radix = 16 then isXDigit c else if radix = 2 then c = 48 ∨ c = 49 else 48 ≤ c ∧ c ≤ 55

/-- The end of a number: `NumLitSpelling` and `NumLitClean`. -/
def finishNumber (t : Token) : NumberM Token := do
  modify fun s =>
    { s with lexer := { s.lexer with numLitSpelling := s.spelling, numLitClean := s.clean } }
  return t

def setRadix (radix : ℕ) : NumberM Unit :=
  modify fun s => { s with lexer := { s.lexer with numLitRadix := radix } }

/-- `0x…`, `0b…` and `0o…`. -/
def scanRadixNumber (radix : ℕ) : NumberM Token := do
  modify NumberScan.takeMark
  modify NumberScan.takeMark
  setRadix radix
  let digitsConsumed ← scanDigitRun (isRadixDigit radix)
  let s ← get
  if s.lexer.lastChar.any isAlnum then
    raise (.invalidRadixDigit s.lexer.curLoc (byteOf s.lexer.lastChar) radix s.spelling)
  else if digitsConsumed = 0 then
    raise (.malformedRadixPrefix s.lexer.curLoc s.spelling)
  rejectStrayPoint true false
  finishNumber .tokIntLiteral

/-- The fractional part, where a digit follows the point; whether there is one. -/
def scanFraction : NumberM Bool := do
  let s ← get
  if s.lexer.lastChar = some 46 ∧ s.lexer.peek.any isDigit then
    modify NumberScan.takeClean
    let _ ← scanDigitRun isDigit
    return true
  else return false

/-- The exponent; whether there is one. -/
def scanExponent : NumberM Bool := do
  let s ← get
  if s.lexer.lastChar = some 101 ∨ s.lexer.lastChar = some 69 then
    modify NumberScan.takeClean
    let s ← get
    if s.lexer.lastChar = some 43 ∨ s.lexer.lastChar = some 45 then
      modify NumberScan.takeClean
    let digits ← scanDigitRun isDigit
    if digits = 0 then
      let s ← get
      raise (.malformedExponent s.lexer.curLoc s.spelling)
    return true
  else return false

/-- A decimal integer, or a float. -/
def scanDecimalNumber : NumberM Token := do
  setRadix 10
  let _ ← scanDigitRun isDigit
  let fraction ← scanFraction
  let exponent ← scanExponent
  rejectStrayPoint false (fraction || exponent)
  finishNumber (if fraction || exponent then .tokNumber else .tokIntLiteral)

def scanNumber : NumberM Token := do
  let s ← get
  match (if s.lexer.lastChar = some 48 then s.lexer.peek.bind radixOf else none) with
  | some radix => scanRadixNumber radix
  | none => scanDecimalNumber

/-! ### Operators -/

/-- An operator whose first byte is `LastChar`: the byte after it may make a longer one. -/
def scanOperator (t : Token) (longer : List (UInt8 × (LexerState → Token × LexerState)))
    (L : LexerState) : Token × LexerState :=
  let L := advance L
  match longer.find? fun op => L.lastChar = some op.1 with
  | some op => op.2 L
  | none => (t, L)

/-- `>`, `>=`, `>>` and `>>=`. -/
def scanGreater : LexerState → Token × LexerState :=
  scanOperator (.char 62)
    [(61, scanOperator .tokGeq []),
     (62, scanOperator .tokRshift [(61, scanOperator .tokRshiftAssign [])])]

/-- The operators but for those that begin with a slash. -/
def operators : List (UInt8 × (LexerState → Token × LexerState)) :=
  [(61, scanOperator .tokAssign [(61, scanOperator .tokEq [])]),
   (58, scanOperator .tokColon [(58, scanOperator .tokScope [])]),
   (33, scanOperator (.char 33) [(61, scanOperator .tokNeq [])]),
   (62, scanGreater),
   (60, scanOperator (.char 60)
     [(61, scanOperator .tokLeq []),
      (60, scanOperator .tokLshift [(61, scanOperator .tokLshiftAssign [])])]),
   (38, scanOperator (.char 38)
     [(38, scanOperator .tokAnd []), (61, scanOperator .tokAndAssign [])]),
   (124, scanOperator (.char 124)
     [(124, scanOperator .tokOr []), (61, scanOperator .tokOrAssign [])]),
   (94, scanOperator (.char 94) [(61, scanOperator .tokXorAssign [])]),
   (43, scanOperator (.char 43)
     [(43, scanOperator .tokPlusPlus []), (61, scanOperator .tokPlusAssign [])]),
   (45, scanOperator (.char 45)
     [(45, scanOperator .tokMinusMinus []), (61, scanOperator .tokMinusAssign []),
      (62, scanOperator .tokArrow [])]),
   (42, scanOperator (.char 42)
     [(61, scanOperator .tokMulAssign []),
      (42, scanOperator .tokPower [(61, scanOperator .tokPowerAssign [])])]),
   (37, scanOperator (.char 37) [(61, scanOperator .tokModAssign [])])]

/-- The scans of operators, with the byte that each begins at: no operator has a newline in it, and
none is a literal. -/
inductive IsOperator : UInt8 → (LexerState → Token × LexerState) → Prop
  | scan {c : UInt8} {t : Token} {longer : List (UInt8 × (LexerState → Token × LexerState))}
    (hc : c ≠ 10) (ht : t ≠ .tokIntLiteral) (hlonger : ∀ op ∈ longer, IsOperator op.1 op.2) :
    IsOperator c (scanOperator t longer)

theorem isOperator_of_mem : ∀ op ∈ operators, IsOperator op.1 op.2 := by
  have hleaf : ∀ c t, c ≠ 10 → t ≠ .tokIntLiteral → IsOperator c (scanOperator t []) :=
    fun c t hc ht => .scan hc ht (by simp)
  simp only [operators, scanGreater, List.forall_mem_cons, List.not_mem_nil, false_implies,
    implies_true, and_true]
  refine ⟨?_, ?_, ?_, ?_, ?_, ?_, ?_, ?_, ?_, ?_, ?_, ?_⟩ <;>
  · refine .scan (by decide) (by decide) ?_
    simp only [List.forall_mem_cons, List.not_mem_nil, false_implies, implies_true, and_true]
    repeat' apply And.intro
    all_goals first
      | exact hleaf _ _ (by decide) (by decide)
      | exact .scan (by decide) (by decide)
          (by simp only [List.forall_mem_singleton]; exact hleaf _ _ (by decide) (by decide))

/-- The end of `gettokScan`: `@`, the end of the text, a byte that stands for itself. -/
def scanOther (L : LexerState) : Token × LexerState :=
  match L.lastChar with
  | some 64 => (.tokAt, advance L)
  | some c => (.char c, advance L)
  | none => (.tokEof, L)

/-! ### `gettok` -/

/-- The bytes of a comment after its first. -/
def isCommentChar (c : UInt8) : Bool := c ≠ 10 ∧ c ≠ 13

def skipComment (L : LexerState) : LexerState := (advance L).loopWhile isCommentChar advance

/-- A branch that raises nothing. -/
def returns (r : Token × LexerState) : EStateM.Result LexError LexerState Token := .ok r.1 r.2

/-- The number branch, on the lexer alone. -/
def runNumber (L : LexerState) : EStateM.Result LexError LexerState Token :=
  match scanNumber { lexer := L } with
  | .ok t s => .ok t s.lexer
  | .error e s => .error e s.lexer

/-- `L.CurLoc = {L.CurLine, L.CurCol, L.Filename};`. -/
def stampLoc (L : LexerState) : LexerState :=
  { L with curLoc := { line := L.curLine, col := L.curCol, filename := L.filename } }

/-- `gettokScan`; the fuel counts the comments before the token. -/
def gettokScan : ℕ → LexerState → EStateM.Result LexError LexerState Token
  | 0, L => .ok .tokEof L
  | fuel + 1, L =>
    let L := stampLoc (skipSpace L)
    if L.lastChar.any (fun c => isAlpha c ∨ c = 95) then returns (scanIdentifier L)
    else if L.lastChar = some 34 then returns (scanString L)
    else if L.lastChar = some 39 then returns (scanChar L)
    else if L.lastChar = some 46 ∧ L.peek = some 46 then returns (scanDots L)
    else if L.lastChar.any isDigit ∨ L.lastChar = some 46 ∧ L.peek.any isDigit then runNumber L
    else
      match operators.find? fun op => L.lastChar = some op.1 with
      | some op => returns (op.2 L)
      | none =>
        if L.lastChar = some 47 ∧ L.peek = some 47 then
          let L := skipComment L
          if L.lastChar ≠ none then gettokScan fuel L else returns (scanOther L)
        else if L.lastChar = some 47 ∧ L.peek = some 61 then
          returns (.tokDivAssign, advance (advance L))
        else returns (scanOther L)

/-- `gettok`. -/
def gettok (L : LexerState) : EStateM.Result LexError LexerState Token :=
  let L := { L with prevTokEndLine := L.curLoc.endLine, prevTokEndCol := L.curLoc.endCol }
  match gettokScan (L.source.length + 1) L with
  | .ok t L =>
    .ok t { L with curLoc := { L.curLoc with endLine := L.curLine, endCol := L.curCol } }
  | .error e L => .error e L

/-- `LexerState(Buffer, Filename)`. -/
def openLexer (text : Bytes) (filename : String) : LexerState := { source := text, filename }

end Lexer

end TurfLang
