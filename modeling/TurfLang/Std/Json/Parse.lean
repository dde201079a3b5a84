import TurfLang.Std.Json.Value

/-!
# `lib/std/json/json.tr`: `parse`

The recursive-descent parser over a byte position. The mutual recursion of `parse_value`,
`parse_array` and `parse_object` takes fuel; running out of it is a result of its own,
`Stop.outOfFuel`, which no source execution has.
-/

namespace TurfLang.Json

open Strings

/-- `JsonError`: every variant carries the offset at which the parser gave up. -/
inductive JsonError
  | unexpectedEnd (offset : ℕ)
  | unexpectedChar (offset : ℕ)
  | invalidNumber (offset : ℕ)
  | invalidLiteral (offset : ℕ)
  | unterminatedString (offset : ℕ)
  | expectedColon (offset : ℕ)
  | expectedComma (offset : ℕ)
  deriving DecidableEq, Repr

/-- How a parse ends without a value: with an error and its message, with the panic of a list
access out of range, or out of fuel. -/
inductive Stop
  | raised (err : JsonError) (message : Bytes)
  | panicked
  | outOfFuel
  deriving DecidableEq, Repr

/-- `return JsonError::X(offset, "what at offset " + (offset to string))`. -/
def failAt {α : Type} (err : ℕ → JsonError) (what : String) (offset : ℕ) : Except Stop α :=
  .error (.raised (err offset) (bytes what ++ bytes " at offset " ++ natToString offset))

/-- `Parser`. -/
structure Parser where
  s : Bytes
  pos : ℕ
  len : ℕ
  deriving DecidableEq, Repr

namespace Parser

/-- The byte at `pos`, as an `int`. -/
def at' (p : Parser) : ℤ := charToInt (byteAtUnchecked p.s p.pos)

/-- `self.pos = self.pos + n`. -/
def advance (p : Parser) (n : ℕ) : Parser := { p with pos := p.pos + n }

@[simp] theorem advance_s (p : Parser) (n : ℕ) : (p.advance n).s = p.s := rfl
@[simp] theorem advance_pos (p : Parser) (n : ℕ) : (p.advance n).pos = p.pos + n := rfl
@[simp] theorem advance_len (p : Parser) (n : ℕ) : (p.advance n).len = p.len := rfl

theorem advance_advance (p : Parser) (m n : ℕ) : (p.advance m).advance n = p.advance (m + n) := by
  simp [advance, Nat.add_assoc]

/-- `copy_into(&sb, a, b)`. -/
def copyInto (p : Parser) (sb : StringBuilder) (a b : ℕ) : StringBuilder :=
  ⟨sb.text ++ (List.range' a (b - a)).map (byteAtUnchecked p.s)⟩

@[simp] theorem copyInto_self (p : Parser) (sb : StringBuilder) (a : ℕ) :
    p.copyInto sb a a = sb := by simp [copyInto]

@[simp] theorem advance_copyInto (p : Parser) (n : ℕ) : (p.advance n).copyInto = p.copyInto := rfl

theorem copyInto_succ (p : Parser) (sb : StringBuilder) {a b : ℕ} (h : a ≤ b) :
    p.copyInto sb a (b + 1) = (p.copyInto sb a b).appendChar (byteAtUnchecked p.s b) := by
  simp [copyInto, StringBuilder.appendChar, Nat.succ_sub h, List.range'_concat,
    Nat.add_sub_cancel' h]

/-- `peek`: the byte at `pos`, or -1 at the end of the text. -/
def peek (p : Parser) : ℤ := if p.pos ≥ p.len then -1 else p.at'

/-- Whether a byte is white space to `skip_ws`. -/
def isWs (c : UInt8) : Bool :=
  charToInt c = 32 ∨ charToInt c = 9 ∨ charToInt c = 10 ∨ charToInt c = 13

/-- `skip_ws`. -/
def skipWs (p : Parser) : Parser :=
  { p with pos := Loop.scan (fun i => isWs (byteAtUnchecked p.s i)) p.len p.pos }

/-! ### Literals and strings -/

/-- `parse_literal(lit, value)`, from byte `lit` of the literal on. -/
def parseLiteral {α : Type} (p : Parser) (lit : Bytes) (value : α) : Except Stop (α × Parser) :=
  match lit with
  | [] => .ok (value, p)
  | c :: lit =>
    if p.pos ≥ p.len ∨ p.at' ≠ charToInt c then failAt .invalidLiteral "invalid literal" p.pos
    else (p.advance 1).parseLiteral lit value

/-- The byte `parse_string` appends for the escape with letter `c`. -/
def unescape (c : UInt8) : UInt8 :=
  let esc := charToInt c
  if esc = 34 then 34
  else if esc = 92 then 92
  else if esc = 47 then 47
  else if esc = 110 then 10
  else if esc = 116 then 9
  else if esc = 114 then 13
  else c

/-- The loop of `parse_string`; `seg` is the start of the current run of plain bytes. -/
def stringLoop (p : Parser) (sb : StringBuilder) (seg : ℕ) : Except Stop (Bytes × Parser) :=
  if _h : p.pos < p.len then
    let c := p.at'
    if c = 34 then .ok ((p.copyInto sb seg p.pos).toString, p.advance 1)
    else if c = 92 then
      let sb := p.copyInto sb seg p.pos
      if p.pos + 1 ≥ p.len then
        failAt .unterminatedString "unterminated string" (p.pos + 1)
      else stringLoop (p.advance 2) (sb.appendChar (unescape (byteAtUnchecked p.s (p.pos + 1))))
        (p.pos + 2)
    else stringLoop (p.advance 1) sb seg
  else failAt .unterminatedString "unterminated string" p.pos
termination_by p.len - p.pos
decreasing_by all_goals simp only [advance_len, advance_pos]; omega

/-- `parse_string`. -/
def parseString (p : Parser) : Except Stop (Bytes × Parser) :=
  (p.advance 1).stringLoop ⟨[]⟩ (p.pos + 1)

/-! ### Numbers -/

/-- `parse_number`. A digit was seen when the integer part is not empty or the fraction is
longer than its point. -/
def parseNumber {D : Type} (ops : Doubles D) (p : Parser) :
    Except Stop (JsonValue D × Parser) :=
  let start := p.pos
  let i₁ := skipOneOf p.s p.len 45 45 start
  let i₂ := skipDigits p.s p.len i₁
  let i₃ := skipFraction p.s p.len i₂
  let i₄ := if AtExponent p.s p.len i₃ then
    skipDigits p.s p.len (skipOneOf p.s p.len 43 45 (i₃ + 1)) else i₃
  let sawDigit := i₁ < i₂ ∨ i₂ + 1 < i₃
  if ¬ sawDigit then failAt .invalidNumber "invalid number" start
  else
    let numStr := (p.copyInto ⟨[]⟩ start i₄).toString
    match parseDouble ops.toDouble numStr with
    | .ok n => .ok (.fromNumber ops n, { p with pos := i₄ })
    | .error _ => failAt .invalidNumber "invalid number" start

end Parser

/-! ### Values -/

section ParseValue

variable {D : Type} (ops : Doubles D)

mutual

/-- `parse_value`. -/
def parseValue : ℕ → Parser → Except Stop (JsonValue D × Parser)
  | 0, _ => .error .outOfFuel
  | fuel + 1, p =>
    let p := p.skipWs
    let c := p.peek
    if c = -1 then failAt .unexpectedEnd "unexpected end of JSON" p.pos
    else if c = 123 then parseObject fuel p
    else if c = 91 then parseArray fuel p
    else if c = 34 then do
      let (s, p) ← p.parseString
      return (.fromString ops s, p)
    else if c = 116 then p.parseLiteral (bytes "true") (.fromBool ops true)
    else if c = 102 then p.parseLiteral (bytes "false") (.fromBool ops false)
    else if c = 110 then p.parseLiteral (bytes "null") (.nullValue ops)
    else if (48 ≤ c ∧ c ≤ 57) ∨ c = 45 then p.parseNumber ops
    else failAt .unexpectedChar "unexpected character" p.pos

/-- `parse_array`. -/
def parseArray : ℕ → Parser → Except Stop (JsonValue D × Parser)
  | 0, _ => .error .outOfFuel
  | fuel + 1, p =>
    let p := (p.advance 1).skipWs
    if p.peek = 93 then .ok (.newArray ops, p.advance 1)
    else parseItems fuel p (.newArray ops)

/-- The loop of `parse_array`. -/
def parseItems : ℕ → Parser → JsonValue D → Except Stop (JsonValue D × Parser)
  | 0, _, _ => .error .outOfFuel
  | fuel + 1, p, arr => do
    let (item, p) ← parseValue fuel p
    let arr := arr.push item
    let p := p.skipWs
    let c := p.peek
    if c = 44 then parseItems fuel (p.advance 1).skipWs arr
    else if c = 93 then return (arr, p.advance 1)
    else failAt .expectedComma "expected ','" p.pos

/-- `parse_object`. -/
def parseObject : ℕ → Parser → Except Stop (JsonValue D × Parser)
  | 0, _ => .error .outOfFuel
  | fuel + 1, p =>
    let p := (p.advance 1).skipWs
    if p.peek = 125 then .ok (.newObject ops, p.advance 1)
    else parseMembers fuel p (.newObject ops)

/-- The loop of `parse_object`. -/
def parseMembers : ℕ → Parser → JsonValue D → Except Stop (JsonValue D × Parser)
  | 0, _, _ => .error .outOfFuel
  | fuel + 1, p, obj => do
    let p := p.skipWs
    if p.peek ≠ 34 then failAt .unexpectedChar "unexpected character" p.pos
    let (key, p) ← p.parseString
    let p := p.skipWs
    if p.peek ≠ 58 then failAt .expectedColon "expected ':'" p.pos
    let p := (p.advance 1).skipWs
    let (value, p) ← parseValue fuel p
    let obj ← match obj.set key value with
      | some obj => pure obj
      | none => .error .panicked
    let p := p.skipWs
    let c := p.peek
    if c = 44 then parseMembers fuel (p.advance 1) obj
    else if c = 125 then return (obj, p.advance 1)
    else failAt .expectedComma "expected ','" p.pos

end

/-- `parse`, with fuel enough for a text of this length. Trailing bytes are ignored. -/
def parse (s : Bytes) : Except Stop (JsonValue D) := do
  let (v, _) ← parseValue ops (3 * strlen s + 3) ⟨s, 0, strlen s⟩
  return v

end ParseValue

end TurfLang.Json
