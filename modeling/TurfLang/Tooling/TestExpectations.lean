import TurfLang.Lib.TextLines
import TurfLang.Std.Strings

/-!
# `src/tooling/TestExpectations.cpp`: how a test ended

A test runs in a process of its own. What the process prints is one text, its report to the harness
included (`EmitTestHarness`, `src/codegen/CodegenFunc.cpp`); `JudgeRun` reads from the text and the
exit status how the test ended.
-/

namespace TurfLang

namespace TestExpect

open TextLines

/-- A variant of an error type: the type by its identity, with a module before it where it has
one. -/
structure ErrorVariant where
  type : Bytes
  variant : Bytes
  newline_notMem_type : 10 ∉ type
  isIdent : ∀ c ∈ variant, c ≠ 10 ∧ c ≠ 13 ∧ c ≠ 58
  variant_ne_nil : variant ≠ []

/-- `BuildBareTagString`. -/
def ErrorVariant.tag (e : ErrorVariant) : Bytes := e.type ++ bytes "::" ++ e.variant

/-- `TestAnnotation::Spec`, of a test that runs. -/
inductive Spec where
  | returns
  | warning
  | noWarnings
  | panic (text : Bytes)
  | exit (status : ℕ) (le : status ≤ 255)
  | error (e : ErrorVariant)

/-- The outcome word of a test case. -/
inductive Outcome where
  | returns
  | warning
  | noWarnings
  | panic
  | exit
  | error
  deriving DecidableEq

/-- `TestCase`, as far as `JudgeRun` reads it. -/
structure TestCase where
  outcome : Outcome
  text : Bytes
  error : Bytes
  status : ℤ

/-- The entry of a test in the manifest (`writeManifest`), read again (`ParseManifest`). -/
def Spec.testCase : Spec → TestCase
  | .returns => ⟨.returns, [], [], 0⟩
  | .warning => ⟨.warning, [], [], 0⟩
  | .noWarnings => ⟨.noWarnings, [], [], 0⟩
  | .panic text => ⟨.panic, text, [], 0⟩
  | .exit status _ => ⟨.exit, [], [], status⟩
  | .error e => ⟨.error, [], e.tag, 0⟩

/-! ### The test program -/

/-- How the process of a test ends. -/
inductive Ending where
  | returns
  | returnsError (e : ErrorVariant)
  | panics
  | exits (code : ℤ)
  | timesOut

/-- What the program prints behind the text of the test (`EmitTestHarness`). -/
def Ending.report : Ending → Bytes
  | .returns => bytes "\nturf-test: returned\n"
  | .returnsError e => bytes "\nturf-test: error " ++ e.tag ++ bytes "\n"
  | _ => []

/-- `ProcResult::Status`: the exit status, or 128 and the number of the signal. -/
def Ending.status : Ending → ℤ
  | .returns | .returnsError _ => 0
  | .panics => 134
  | .exits code => code % 256
  | .timesOut => 137

/-- `ProcResult::TimedOut`. -/
def Ending.timedOut : Ending → Bool
  | .timesOut => true
  | _ => false

/-- `ProcResult::Output`, where the test has printed `text`. The message of a panic is printed by the
test's own process and belongs to it. -/
def Ending.output (e : Ending) (text : Bytes) : Bytes := text ++ e.report

/-! ### The judgement -/

/-- `Cur.pop_back()` at a carriage return. -/
def dropCR (line : Bytes) : Bytes := if line.getLast? = some 13 then line.dropLast else line

/-- `SplitLines`. -/
def splitLines (text : Bytes) : List Bytes := (lines 10 text).map dropCR

/-- `Contains`. -/
def contains (hay needle : Bytes) : Bool := needle <:+: hay

/-- `Quote`. -/
def quote (s : Bytes) : Bytes := bytes "\"" ++ s ++ bytes "\""

/-- `ReturnedLine`. -/
def returnedLine : Bytes := bytes "turf-test: returned"

/-- `ErrorLinePrefix`. -/
def errorLinePrefix : Bytes := bytes "turf-test: error "

/-- `ProgramOutput`. -/
def programOutput (output : Bytes) : Bytes :=
  chomp 10 (unlines 10 ((splitLines output).filter fun l =>
    l ≠ returnedLine ∧ ¬ errorLinePrefix <+: l))

/-- What the lines of an output say. -/
structure Report where
  returned : Bool
  returnedError : Bytes
  deriving DecidableEq

/-- One round of the loop over the lines. -/
def Report.line (r : Report) (l : Bytes) : Report :=
  if l = returnedLine then { r with returned := true }
  else if errorLinePrefix <+: l then { r with returnedError := l.drop errorLinePrefix.length }
  else r

def readReport (output : Bytes) : Report := (splitLines output).foldl Report.line ⟨false, []⟩

def Report.panicked (r : Report) (status : ℤ) : Bool :=
  !r.returned && r.returnedError.isEmpty && status == 134

/-- `Ended`: how the test ended, in words. -/
def Report.ended (r : Report) (status : ℤ) (timedOut : Bool) : Bytes :=
  if timedOut then bytes "it did not finish (timed out)"
  else if r.returnedError ≠ [] then bytes "it returned the error " ++ r.returnedError
  else if r.returned then bytes "it returned"
  else if r.panicked status then bytes "it panicked"
  else bytes "it ended with exit status " ++ bytes (toString status)

/-- `JudgeRun`: the problems found. -/
def judgeRun (c : TestCase) (status : ℤ) (timedOut : Bool) (output : Bytes) : List Bytes :=
  let r := readReport output
  let ended := r.ended status timedOut
  match c.outcome with
  | .panic =>
    if !r.panicked status || timedOut then
      [ended ++ bytes "; expected a panic" ++
        if c.text.isEmpty then [] else bytes " with " ++ quote c.text]
    else if !contains output c.text then
      [bytes "it panicked, but its output does not contain " ++ quote c.text]
    else []
  | .exit =>
    if timedOut || r.returned || !r.returnedError.isEmpty || status != c.status then
      [ended ++ bytes "; expected it to end through sys::exit(" ++ bytes (toString c.status) ++
        bytes ")"]
    else []
  | .error =>
    if r.returnedError = c.error ∧ timedOut = false then []
    else [ended ++ bytes "; expected it to return the error " ++ c.error]
  | .returns | .warning | .noWarnings =>
    if r.returned ∧ timedOut = false then [] else [ended ++ bytes "; expected it to return"]

end TestExpect

end TurfLang
