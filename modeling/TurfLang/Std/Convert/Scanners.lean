import TurfLang.Std.Strings

/-!
# The three string-to-number scanners

`runtime/turfrt_convert.c` (the casts `s to int` and `s to double`), `strings::parse_int` with
`strings::parse_double`, and the compile-time check of a cast string literal in
`src/sema/TypeCheckerExpr.cpp`. The C code walks a pointer up to the terminator, the other two
count positions up to a length: the terminator's position for the library, the number of
decoded bytes for the compiler. A pointer is the list of the bytes from it on.

* `strToInt`, `parseInt` and `literalConvertsToInt`, over 64-bit arithmetic that can overflow;
* `strToDouble` and `literalConvertsToDouble`, beside `Strings.parseDouble`;
* `literalCastError`, the error E149 of a literal that never converts.
-/

namespace TurfLang

namespace Convert

open Strings

/-- Why a scanner has no value: it refuses the text, or a 64-bit operation overflowed. -/
inductive Stop (ε : Type)
  | refused (error : ε)
  | overflow
  deriving DecidableEq

variable {ε D : Type}

/-- A signed 64-bit operation whose exact result is `v`. -/
def int64 (v : ℤ) : Except (Stop ε) ℤ :=
  if -2 ^ 63 ≤ v ∧ v < 2 ^ 63 then .ok v else .error .overflow

/-- `INT64_MIN`. -/
def int64Min : ℤ := -2 ^ 63

/-- The body of a digit loop: `r = r * 10 - d` for the digit `c`, after the check that this
stays in range. -/
def digitStep (minDiv10 minLastDigit : ℤ) (error : ε) (r : ℤ) (c : UInt8) :
    Except (Stop ε) ℤ :=
  if isDigit c = false then .error (.refused error)
  else
    let d := charToInt c - 48
    if r < minDiv10 ∨ (r = minDiv10 ∧ d > minLastDigit) then .error (.refused error)
    else do
      let m ← int64 (r * 10)
      int64 (m - d)

/-! ### `runtime/turfrt_convert.c` -/

/-- `*p`: past the last byte stands the terminator. -/
def deref (p : Bytes) : UInt8 := p.headD 0

/-- The bytes a loop `for (; *p; p++)` runs over. -/
def cString (p : Bytes) : Bytes := p.takeWhile (· ≠ 0)

/-- `turf_rt_str_to_int`; the null pointer is `none`. -/
def strToInt : Option Bytes → Except (Stop Unit) ℤ
  | none => .error (.refused ())
  | some s =>
    let neg := deref s = 45
    let p := if neg then s.tail else s
    if isDigit (deref p) = false then .error (.refused ())
    else do
      let r ← (cString p).foldlM (digitStep (int64Min.tdiv 10) (-(int64Min.tmod 10)) ()) 0
      if neg then .ok r
      else if r = int64Min then .error (.refused ())
      else int64 (-r)

/-- `if (*p == a || *p == b) p++;`. -/
def stepOver (a b : UInt8) (p : Bytes) : Bytes := if deref p = a ∨ deref p = b then p.tail else p

/-- `while (is_digit(*p)) { p++; digits++; }`. -/
def digitsLoop : Bytes → ℕ → Bytes × ℕ
  | c :: p, digits => if isDigit c then digitsLoop p (digits + 1) else (c :: p, digits)
  | [], digits => ([], digits)

/-- `turf_rt_str_to_double` up to its last test: where `p` stands, unless it returned 0. -/
def scanNumber (s : Bytes) : Option Bytes :=
  let p := stepOver 45 45 s
  let (p, digits) := digitsLoop p 0
  let (p, digits) := if deref p = 46 then digitsLoop p.tail digits else (p, digits)
  if digits = 0 then none
  else if deref p = 101 ∨ deref p = 69 then
    let (p, expDigits) := digitsLoop (stepOver 43 45 p.tail) 0
    if expDigits = 0 then none else some p
  else some p

/-- `turf_rt_str_to_double`; `strtod` is C's, on a text that is plain decimal. -/
def strToDouble (strtod : Bytes → D) : Option Bytes → Except (Stop Unit) D
  | none => .error (.refused ())
  | some s =>
    match scanNumber s with
    | none => .error (.refused ())
    | some p => if deref p ≠ 0 then .error (.refused ()) else .ok (strtod (cString s))

/-! ### `strings::parse_int` -/

/-- The error `parse_int` returns, with its message text. -/
def notAnInt (s : Bytes) : StringParseError := .invalidInt (bytes "not an int: '" ++ s ++ bytes "'")

/-- `parse_int`. -/
def parseInt (s : Bytes) : Except (Stop StringParseError) ℤ :=
  let n := strlen s
  if n = 0 then .error (.refused (notAnInt s))
  else
    let neg := charToInt (byteAtUnchecked s 0) = 45
    let i := if neg then 1 else 0
    if i ≥ n then .error (.refused (notAnInt s))
    else do
      let minDiv10 := -922337203685477580
      let result ← (List.range' i (n - i)).foldlM
        (fun r i => digitStep minDiv10 8 (notAnInt s) r (byteAtUnchecked s i)) 0
      if neg then .ok result
      else
        let m ← int64 (minDiv10 * 10)
        let least ← int64 (m - 8)
        if result = least then .error (.refused (notAnInt s)) else int64 (0 - result)

/-! ### The check of a cast literal -/

/-- The value `literalConvertsToInt` accumulates in `R`; it is refused where that function
returns `false`. -/
def literalInt (S : Bytes) : Except (Stop Unit) ℤ :=
  let neg := 0 < S.length ∧ byteAtUnchecked S 0 = 45
  let I := if neg then 1 else 0
  if I = S.length then .error (.refused ())
  else do
    let R ← (List.range' I (S.length - I)).foldlM
      (fun R I => digitStep (int64Min.tdiv 10) (-(int64Min.tmod 10)) () R (byteAtUnchecked S I)) 0
    if neg ∨ R ≠ int64Min then .ok R else .error (.refused ())

/-- `literalConvertsToInt`. -/
def literalConvertsToInt (S : Bytes) : Bool :=
  match literalInt S with
  | .ok _ => true
  | .error _ => false

/-- `literalConvertsToDouble`. -/
def literalConvertsToDouble (S : Bytes) : Bool :=
  let n := S.length
  let i₁ := skipOneOf S n 45 45 0
  let i₂ := skipDigits S n i₁
  let i₃ := skipFraction S n i₂
  let digits := (i₂ - i₁) + (i₃ - (i₂ + 1))
  if digits = 0 then false
  else if AtExponent S n i₃ then
    let start := skipOneOf S n 43 45 (i₃ + 1)
    let i₄ := skipDigits S n start
    let expDigits := i₄ - start
    if expDigits = 0 then false else i₄ = n
  else i₃ = n

/-- The type a string literal is cast to, as far as the check asks. -/
inductive CastDest
  | int
  | double
  | enum (name : Bytes) (variants : List Bytes)
  | other

/-- `LiteralNeverConvertsError` (E149): its message, hint and title. -/
structure LiteralNeverConverts where
  message : Bytes
  hint : Bytes
  title : Bytes
  deriving DecidableEq

/-- What the literal is not, and the hint, when the check of `visitCast` fails. -/
def literalKind (dest : CastDest) (text : Bytes) : Option (Bytes × Bytes) :=
  match dest with
  | .int =>
    if literalConvertsToInt text then none
    else some (bytes "an int",
      bytes "'to int' takes an optional '-' and decimal digits, in int's " ++
        bytes "range. Write the number itself, e.g. 42, not \"42\" to int.")
  | .double =>
    if literalConvertsToDouble text then none
    else some (bytes "a double",
      bytes "'to double' takes an optional '-', digits with at most one " ++
        bytes "'.', and an optional exponent (1e3). Write the number itself, " ++
        bytes "e.g. 2.5, not \"2.5\" to double.")
  | .enum name variants =>
    if text ∈ variants then none
    else some (bytes "a variant of '" ++ name ++ bytes "'",
      bytes "Name the variant directly, e.g. '" ++ name ++ bytes "::" ++
        variants.headD (bytes "X") ++ bytes "'.")
  | .other => none

/-- The error `visitCast` reports for the cast of a string literal. -/
def literalCastError (dest : CastDest) (text : Bytes) : Option LiteralNeverConverts :=
  (literalKind dest text).map fun (kind, hint) =>
    { message := bytes "\"" ++ text ++ bytes "\" is not " ++ kind ++
        bytes ", so this conversion would always panic when it runs."
      hint := hint
      title := bytes "Conversion can never succeed!" }

theorem literalCastError_int {S : Bytes} :
    literalCastError .int S = none ↔ literalConvertsToInt S = true := by
  simp [literalCastError, literalKind]

theorem literalCastError_double {S : Bytes} :
    literalCastError .double S = none ↔ literalConvertsToDouble S = true := by
  simp [literalCastError, literalKind]

end Convert

end TurfLang
