import TurfLang.Frontend.NumberLiteral
import TurfLang.Sema.Equivalence

/-!
# `src/frontend/ParserCore.cpp`: `ParseType`

The parser on the tokens from the current one on: `CurTok` is the kind of the first, and
`getNextToken` drops it. Past the last token stands `TOK_EOF`. An error abandons the type, whether
it is raised or logged before a null pointer is returned. The recursion guard is the number of
guards that may still be taken.
-/

namespace TurfLang

namespace ParserCore

open Lexer

/-- The tokens from the current one on. -/
abbrev Tokens := List LexedToken

/-- `CurTok`. -/
def curTok : Tokens → Token
  | [] => .tokEof
  | t :: _ => t.tok

@[simp] theorem curTok_nil : curTok [] = .tokEof := rfl
@[simp] theorem curTok_cons (t : LexedToken) (ts : Tokens) : curTok (t :: ts) = t.tok := rfl

/-- `Parser().CurTok = tok`: the kind alone is changed. -/
def setCurTok (tok : Token) : Tokens → Tokens
  | [] => []
  | t :: ts => { t with tok } :: ts

@[simp] theorem setCurTok_cons (tok : Token) (t : LexedToken) (ts : Tokens) :
    setCurTok tok (t :: ts) = { t with tok } :: ts := rfl

/-- `Lex().CurLoc`. -/
def curLoc (ts : Tokens) : SourceLocation := (ts.head?.map LexedToken.loc).getD { line := 1, col := 0 }

/-- A name as a `std::string` of text. -/
def nameOf (s : Bytes) : String := String.ofList (s.map fun c => Char.ofNat c.toNat)

/-- `Lex().IdentifierStr`. -/
def identifier (ts : Tokens) : String := nameOf ((ts.head?.map LexedToken.identifierStr).getD [])

/-- An error of the parser: its place, its code and its text; `outOfTokens` is a loop of the model
that was given too few rounds. -/
inductive ParseError
  | error (loc : SourceLocation) (code : String) (message : String)
  | outOfTokens
  deriving DecidableEq

/-- The members of `ParserState` that a type depends on. -/
structure TypeContext where
  sizeParamsInScope : List String := []
  allowGuessType : Bool := false
  moduleKeyFor : String → String := id

/-! ### Array dimensions -/

/-- `strtoll` of a text with no sign before its digits: the number, or the largest `long long`. -/
def strtoll (s : Bytes) (radix : ℕ) : ℤ :=
  min (valueOf radix (s.takeWhile (isDigitOf radix)) : ℤ) (2 ^ 63 - 1)

/-- `static_cast<int>` of a `long long`. -/
def toInt32 (n : ℤ) : ℤ := (BitVec.ofInt 32 n).toInt

/-- The size that a literal is read as. -/
def literalSize (t : LexedToken) : ℤ := toInt32 (strtoll t.numLitClean t.numLitRadix)

/-- The two texts in which the copies of the loop over dimensions differ: of a size that is not
positive, and of a dimension that is not closed. -/
structure DimensionTexts where
  notPositive : String
  notClosed : Tokens → ParseError

/-- `E123`, of a size that is not positive. -/
def notPositiveError (texts : DimensionTexts) (ts : Tokens) : ParseError :=
  .error (curLoc ts) "E123" texts.notPositive

/-- What stands between the brackets of a dimension: a size parameter, a literal or nothing. -/
def parseSize (ctx : TypeContext) (texts : DimensionTexts) (ts : Tokens) :
    Except ParseError (ArraySize × Tokens) :=
  match ts with
  | t :: rest =>
    if t.tok = .tokIdentifier ∧ identifier ts ∈ ctx.sizeParamsInScope then
      .ok (.param (identifier ts), rest)
    else if t.tok = .tokIntLiteral then
      if literalSize t ≤ 0 then .error (notPositiveError texts ts)
      else .ok (.fixed (literalSize t).toNat, rest)
    else .ok (.unsized, ts)
  | [] => .ok (.unsized, [])

/-- One dimension, from its bracket on. -/
def parseDimension (ctx : TypeContext) (texts : DimensionTexts) (ts : Tokens) :
    Except ParseError (ArraySize × Tokens) := do
  let (size, ts) ← parseSize ctx texts ts.tail
  if curTok ts ≠ .char 93 then throw (texts.notClosed ts)
  return (size, ts.tail)

/-- The loop over `[N]` and `[]`; each round takes two tokens at least. -/
def parseDimensions (ctx : TypeContext) (texts : DimensionTexts) :
    ℕ → Tokens → Except ParseError (List ArraySize × Tokens)
  | 0, ts => .ok ([], ts)
  | fuel + 1, ts =>
    if curTok ts = .char 91 then do
      let (size, ts) ← parseDimension ctx texts ts
      let (sizes, ts) ← parseDimensions ctx texts fuel ts
      return (size :: sizes, ts)
    else .ok ([], ts)

/-- The copy of the loop after a generic type. -/
def genericDimensionTexts : DimensionTexts where
  notPositive := "Array size must be positive"
  notClosed ts := .error (curLoc ts) "E104" "Expected ']' to close array size"

/-- The copy of the loop in `ParseTrailingArrayDims`. -/
def trailingDimensionTexts : DimensionTexts where
  notPositive := "Array size must be a positive integer (greater than 0)"
  notClosed ts :=
    if curTok ts = .tokIdentifier then
      .error (curLoc ts) "E123" ("'" ++ identifier ts ++
        "' is not a size: an array's size is a positive whole number or a size parameter.")
    else
      .error (curLoc ts) "E104" "Expected ']' to close array size — e.g. mut arr: int[5];"

/-- Dimensions after a type: the first one written is the outermost. -/
def parseArrayDims (ctx : TypeContext) (texts : DimensionTexts) (base : TurfType) (ts : Tokens) :
    Except ParseError (TurfType × Tokens) := do
  let (sizes, ts) ← parseDimensions ctx texts ts.length ts
  return (base.wrapDims sizes, ts)

/-- `ParseTrailingArrayDims`. -/
def parseTrailingArrayDims (ctx : TypeContext) : TurfType → Tokens →
    Except ParseError (TurfType × Tokens) :=
  parseArrayDims ctx trailingDimensionTexts

/-- The dimensions of a generic type. -/
def parseGenericArrayDims (ctx : TypeContext) : TurfType → Tokens →
    Except ParseError (TurfType × Tokens) :=
  parseArrayDims ctx genericDimensionTexts

/-- `while (CurTok == '*')`. -/
def parseStars (base : TurfType) : Tokens → TurfType × Tokens
  | t :: ts => if t.tok = .char 42 then parseStars (.pointer base) ts else (base, t :: ts)
  | [] => (base, [])

/-! ### Types -/

/-- A parser of one type. -/
abbrev TypeParser := Tokens → Except ParseError (TurfType × Tokens)

/-- What is left of a token after the `>` that closes a list is split off it. -/
def afterClose (ts : Tokens) : Option Tokens :=
  if curTok ts = .char 62 then some ts.tail
  else if curTok ts = .tokRshift then some (setCurTok (.char 62) ts)
  else if curTok ts = .tokRshiftAssign then some (setCurTok .tokGeq ts)
  else if curTok ts = .tokGeq then some (setCurTok .tokAssign ts)
  else none

/-- The loop of `ParseTypeArgList`, after its `<`. -/
def parseTypeArgs (parse : TypeParser) : ℕ → Tokens → Except ParseError (List TurfType × Tokens)
  | 0, _ => .error .outOfTokens
  | fuel + 1, ts => do
    let (arg, ts) ← parse ts
    match afterClose ts with
    | some ts => return ([arg], ts)
    | none =>
      if curTok ts ≠ .char 44 then
        throw (.error (curLoc ts) "E105" "Expected '>' or ',' in generic type")
      let (args, ts) ← parseTypeArgs parse fuel ts.tail
      return (arg :: args, ts)

/-- `ParseTypeArgList`. -/
def parseTypeArgList (parse : TypeParser) (ts : Tokens) :
    Except ParseError (List TurfType × Tokens) :=
  parseTypeArgs parse (ts.length + 1) ts.tail

/-- The loop over the parameter types of a function type. -/
def parseParamTypes (parse : TypeParser) : ℕ → Tokens → Except ParseError (List TurfType × Tokens)
  | 0, _ => .error .outOfTokens
  | fuel + 1, ts => do
    let (param, ts) ← parse ts
    if curTok ts = .char 44 then
      let (params, ts) ← parseParamTypes parse fuel ts.tail
      return (param :: params, ts)
    else return ([param], ts)

/-- `fn(T1, T2, ...): RetType`, after its `fn`. -/
def parseFuncType (parse : TypeParser) : TypeParser := fun ts => do
  if curTok ts ≠ .char 40 then
    throw (.error (curLoc ts) "E107" "Expected '(' after 'fn' in a function type")
  let ts := ts.tail
  let (params, ts) ←
    if curTok ts ≠ .char 41 then parseParamTypes parse (ts.length + 1) ts else .ok ([], ts)
  if curTok ts ≠ .char 41 then
    throw (.error (curLoc ts) "E104" "Expected ')' to close a function type's parameter list")
  let ts := ts.tail
  if curTok ts ≠ .tokColon then
    throw (.error (curLoc ts) "E106" "Expected ':' before a function type's return type")
  let (ret, ts) ← parse ts.tail
  return (.func ret params, ts)

/-- `(&N)[2]` and `(fn(int): int)[2]`, after the parenthesis that opens at `openLoc`. -/
def parseGroupedType (ctx : TypeContext) (parse : TypeParser) (openLoc : SourceLocation) :
    TypeParser := fun ts => do
  if curTok ts ≠ .char 38 ∧ curTok ts ≠ .tokFn then
    throw (.error openLoc "E109" ("Parentheses in a type are only for an array of references " ++
      "or of functions, e.g. (&Node)[4] or (fn(int): int)[2]."))
  let (elem, ts) ← parse ts
  if curTok ts ≠ .char 41 then
    throw (.error (curLoc ts) "E104"
      "Expected ')' to close the parenthesised type, e.g. (&Node)[4] or (fn(int): int)[2].")
  let ts := ts.tail
  if curTok ts ≠ .char 91 then
    throw (.error openLoc "E109" ("Parentheses in a type are only for an array of references " ++
      "or of functions; expected '[' after ')'."))
  parseTrailingArrayDims ctx elem ts

/-- `&T` and `&?T`, after the `&`. -/
def parseReferenceType (parse : TypeParser) : TypeParser := fun ts =>
  if curTok ts = .char 63 then do
    let (pointee, ts) ← parse ts.tail
    return (.nullableReference pointee, ts)
  else do
    let (pointee, ts) ← parse ts
    return (.reference pointee, ts)

/-- The keywords that name a type, with the names they stand for. -/
def builtinName : Token → Option String
  | .tokTypeInt => some "int"
  | .tokTypeInt32 => some "int32"
  | .tokTypeDouble => some "double"
  | .tokTypeBool => some "bool"
  | .tokTypeChar => some "char"
  | .tokTypeString => some "string"
  | .tokTypeVoid => some "void"
  | _ => none

/-- A name with the module that qualifies it, if one does. -/
def qualifiedName : Option String → String → String
  | some moduleQualifier, name => moduleQualifier ++ "::" ++ name
  | none, name => name

/-- The type that a name stands for when no argument list follows it. -/
def baseType (moduleQualifier : Option String) : String → TurfType
  | "int" => .int
  | "int32" => .int32
  | "double" => .double
  | "bool" => .bool
  | "char" => .char
  | "string" => .string
  | "void" => .void
  | name => .named (qualifiedName moduleQualifier name)

/-- The `::` and the name after a first name, if they are there: that was a module. -/
def parseQualified (ctx : TypeContext) (baseName : String) (ts : Tokens) :
    Except ParseError ((Option String × String) × Tokens) :=
  if curTok ts = .tokScope then
    let ts := ts.tail
    if curTok ts ≠ .tokIdentifier then
      .error (.error (curLoc ts) "E109" "Expected a type name after '::'")
    else .ok ((some (ctx.moduleKeyFor baseName), identifier ts), ts.tail)
  else .ok ((none, baseName), ts)

/-- A type that begins with a name, after that name; one that a keyword names is never generic. -/
def parseNamedType (ctx : TypeContext) (parse : TypeParser) (isBuiltinType : Bool)
    (baseName : String) : TypeParser := fun ts => do
  let ((moduleQualifier, name), ts) ← parseQualified ctx baseName ts
  if curTok ts = .char 60 ∧ isBuiltinType = false then
    let (args, ts) ← parseTypeArgList parse ts
    let (base, ts) := parseStars (.generic (qualifiedName moduleQualifier name) args) ts
    parseGenericArrayDims ctx base ts
  else
    let (base, ts) := parseStars (baseType moduleQualifier name) ts
    parseTrailingArrayDims ctx base ts

/-- `ParseType`, with `room` recursion guards left to take. -/
def parseType (ctx : TypeContext) : ℕ → TypeParser
  | 0, ts => .error (.error (curLoc ts) "E111" "Type nested too deeply to parse.")
  | room + 1, ts =>
    match curTok ts with
    | .char 33 => do
      let (success, ts) ← parseType ctx room ts.tail
      return (.errorUnion success, ts)
    | .char 40 => parseGroupedType ctx (parseType ctx room) (curLoc ts) ts.tail
    | .char 38 => parseReferenceType (parseType ctx room) ts.tail
    | .tokFn => parseFuncType (parseType ctx room) ts.tail
    | .tokIdentifier => parseNamedType ctx (parseType ctx room) false (identifier ts) ts.tail
    | .tokPtr => .ok (.opaquePointer, ts.tail)
    | .tokGuess =>
      if ctx.allowGuessType then .ok (.guess, ts.tail)
      else .error (.error (curLoc ts) "E128"
        "'guess' needs an initializer to infer from, so it can only declare a local variable.")
    | tok =>
      match builtinName tok with
      | some name => parseNamedType ctx (parseType ctx room) true name ts.tail
      | none => .error (.error (curLoc ts) "E109" "Expected a type name")

end ParserCore

end TurfLang
