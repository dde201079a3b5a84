import Mathlib.Data.List.DropRight
import TurfLang.Lib.TakeAway
import TurfLang.Std.Strings

/-!
# `src/diagnostics/CompilerFix.cpp`: `CompilerFixes::build` and `CompilerFixes::check`

`build` makes one fix of the edits that an error carries, `check` compares the errors of the
program before and after it. Line and column numbers are integers; a negative position or length
counts as out of range. `std::sort` may leave edits that compare equal in any order; how it does
is a parameter. The analysis of a program and the file system are parameters of `check`.
-/

namespace TurfLang.CompilerFixes

open Strings (natToString)

/-- `SLM::FixIt`. -/
structure FixIt where
  line : ℤ := 0
  startCol : ℤ := 1
  endCol : ℤ := 1
  replacement : Bytes
  deriving DecidableEq

/-- `CompilerFix::Edit`. -/
structure Edit where
  line : ℤ
  startCol : ℤ
  endCol : ℤ
  replacement : Bytes
  deriving DecidableEq

/-- `CompilerFix`. -/
structure CompilerFix where
  description : Bytes
  edits : List Edit
  firstLine : ℤ
  lastLine : ℤ
  newLines : List Bytes
  patchedFile : Bytes
  deriving DecidableEq

/-- How `build` ends without a fix: it returns `false`, or it reads outside a line or a list. -/
inductive Stop
  | refused
  | outOfRange
  deriving DecidableEq

/-! ### Strings -/

/-- `s.substr(pos, n)`, which throws when `pos` is past the end. -/
def substr (s : Bytes) (pos n : ℤ) : Except Stop Bytes :=
  if 0 ≤ pos ∧ pos ≤ s.length ∧ 0 ≤ n then .ok ((s.drop pos.toNat).take n.toNat)
  else .error .outOfRange

/-- A blank to `trim` and `describeEdit`. -/
def isBlank (c : UInt8) : Bool := c = 32 ∨ c = 9

/-- `trim`. -/
def trim (s : Bytes) : Bytes := (s.dropWhile isBlank).rdropWhile isBlank

/-- The loop that finds the start of the run of text before a position. -/
def runStart (orig : Bytes) : ℕ → Except Stop ℕ
  | 0 => .ok 0
  | i + 1 =>
    match orig[i]? with
    | none => .error .outOfRange
    | some c => if isBlank c then .ok (i + 1) else runStart orig i

/-- `describeEdit`. -/
def describeEdit (E : Edit) (orig : Bytes) : Except Stop Bytes := do
  let old ← substr orig (E.startCol - 1) (E.endCol - E.startCol)
  if old = [] then
    let what := bytes "insert '" ++ trim E.replacement ++ bytes "'"
    let pos := (E.startCol - 1).toNat
    if (orig.drop pos).all isBlank then
      return what ++ bytes " at the end of line " ++ natToString E.line.toNat
    else
      let start ← runStart orig pos
      if start = pos then return what
      else
        let run ← substr orig start ((pos : ℤ) - start)
        return what ++ bytes " after '" ++ run ++ bytes "'"
  else if E.replacement = [] then return bytes "remove '" ++ trim old ++ bytes "'"
  else
    return bytes "replace '" ++ trim old ++ bytes "' with '" ++ trim E.replacement ++ bytes "'"

/-- `joinLines`. -/
def joinLines (lines : List Bytes) : Bytes := lines.flatMap (· ++ [10])

/-! ### `build` -/

/-- `Lines[Line - 1]`. -/
def lineAt (lines : List Bytes) (line : ℤ) : Except Stop Bytes :=
  match lines[(line - 1).toNat]? with
  | none => .error .outOfRange
  | some text => if line < 1 then .error .outOfRange else .ok text

/-- The first loop of `build`: the edits, checked one by one. -/
def collect (errorLine : ℤ) (lines : List Bytes) : List FixIt → Except Stop (List Edit)
  | [] => .ok []
  | F :: fixIts => do
    let line := if F.line = 0 then errorLine else F.line
    if line < 1 ∨ line > lines.length ∨ 10 ∈ F.replacement then .error .refused
    else
      let text ← lineAt lines line
      if F.startCol < 1 ∨ F.endCol < F.startCol ∨ F.endCol > text.length + 1 then
        .error .refused
      else
        let edits ← collect errorLine lines fixIts
        return ⟨line, F.startCol, F.endCol, F.replacement⟩ :: edits

/-- The comparison that `build` sorts with. -/
def Edit.less (A B : Edit) : Prop :=
  if A.line ≠ B.line then A.line < B.line else A.startCol < B.startCol

instance (A B : Edit) : Decidable (A.less B) := by unfold Edit.less; infer_instance

/-- `std::sort` with this comparison. -/
structure Sorter where
  run : List Edit → List Edit
  perm : ∀ l, (run l).Perm l
  sorted : ∀ l, (run l).Pairwise fun A B => ¬ B.less A

/-- Whether an edit overlaps or ties with the one before it. -/
def clashes (P E : Edit) : Bool :=
  E.line = P.line ∧ (E.startCol < P.endCol ∨ E.startCol = P.startCol)

/-- The loop that compares neighbours. -/
def anyClash : List Edit → Bool
  | P :: E :: edits => clashes P E || anyClash (E :: edits)
  | _ => false

/-- What the loops over lines and edits carry along. -/
structure Progress where
  changed : Bool := false
  said : List Bytes := []

/-- The loop over the edits of one line, with the new line so far and the position it has reached;
the edits of later lines are left. -/
def lineLoop (orig : Bytes) (line : ℤ) : List Edit → Bytes → ℤ → Progress →
    Except Stop (List Edit × Bytes × Progress)
  | [], new, pos, p => do
    let tail ← substr orig pos orig.length
    return ([], new ++ tail, p)
  | E :: edits, new, pos, p =>
    if E.line = line then do
      let kept ← substr orig pos (E.startCol - 1 - pos)
      let old ← substr orig (E.startCol - 1) (E.endCol - E.startCol)
      let changed := if old ≠ E.replacement then true else p.changed
      let text ← describeEdit E orig
      let said := if text ∈ p.said then p.said else p.said ++ [text]
      lineLoop orig line edits (new ++ kept ++ E.replacement) (E.endCol - 1)
        ⟨changed, said⟩
    else do
      let tail ← substr orig pos orig.length
      return (E :: edits, new ++ tail, p)

/-- The loop over `n` lines from `line` on, with the new lines. -/
def fileLoop (lines : List Bytes) : ℕ → ℤ → List Edit → Progress →
    Except Stop (List Bytes × Progress)
  | 0, _, _, p => .ok ([], p)
  | n + 1, line, edits, p => do
    let orig ← lineAt lines line
    let (edits, new, p) ← lineLoop orig line edits [] 0 p
    let (news, p) ← fileLoop lines n (line + 1) edits p
    return (new :: news, p)

/-- What is between two parts of a description made of `n` parts, before part `i`. -/
def separator (i n : ℕ) : Bytes :=
  if i = 0 then [] else if i + 1 = n then bytes " and " else bytes ", "

/-- The description that `build` makes of what the edits say. -/
def joinSaid (said : List Bytes) : Bytes :=
  (said.mapIdx fun i text => separator i said.length ++ text).flatten

/-- `build`; of the hints, the fix-its and the description. -/
def build (sort : Sorter) (fixIts : List FixIt) (fixDescription : Bytes) (errorLine : ℤ)
    (lines : List Bytes) : Except Stop CompilerFix := do
  let edits ← collect errorLine lines fixIts
  match sort.run edits with
  | [] => .error .refused
  | first :: rest =>
    let edits := first :: rest
    if anyClash edits then .error .refused
    else
      let firstLine := first.line
      let lastLine := (edits.getLast (List.cons_ne_nil first rest)).line
      let (newLines, p) ← fileLoop lines (lastLine - firstLine + 1).toNat firstLine edits {}
      if ¬ p.changed then .error .refused
      else
        let description := if fixDescription ≠ [] then fixDescription else joinSaid p.said
        -- the lines from `firstLine` to `lastLine` are written over by the new ones
        let patched := lines.take (firstLine - 1).toNat ++ newLines ++ lines.drop lastLine.toNat
        return ⟨description, edits, firstLine, lastLine, newLines, joinLines patched⟩

/-! ### `check` -/

/-- `ErrorKey`: the path, the line and the code of an error. -/
structure ErrorKey where
  path : Bytes
  line : ℤ
  code : Bytes
  deriving DecidableEq

/-- `samePath`; `canonical` is `weakly_canonical`, which may fail. -/
def samePath (canonical : Bytes → Option Bytes) (A B : Bytes) : Bool :=
  A = B ∨ ((canonical A).isSome ∧ canonical A = canonical B)

/-- `sameError`. -/
def sameError (canonical : Bytes → Option Bytes) (A B : ErrorKey) : Bool :=
  A.line = B.line ∧ A.code = B.code ∧ samePath canonical A.path B.path

/-- What `check` finds of the program and of the compile it runs in. -/
structure Program where
  canonical : Bytes → Option Bytes
  /-- `errorsOf(analyzeAll(..))` of the files that are given with their texts. -/
  errors : List (Bytes × Bytes) → List ErrorKey
  mainSourceFilename : Bytes
  /-- `entryLines()`. -/
  entryLines : Option (List Bytes)
  /-- The flag that an analysis must not come back to `check`. -/
  checking : Bool := false

/-- `baselineErrors()`. -/
def Program.baselineErrors (P : Program) : List ErrorKey :=
  match P.entryLines with
  | some lines => P.errors [(P.mainSourceFilename, joinLines lines)]
  | none => []

/-- The files that `check` has analysed with a fix in them. -/
def Program.buffers (P : Program) (fix : CompilerFix) (file : Bytes) (entry : List Bytes) :
    List (Bytes × Bytes) :=
  if samePath P.canonical file P.mainSourceFilename then
    [(P.mainSourceFilename, fix.patchedFile)]
  else [(P.mainSourceFilename, joinLines entry), (file, fix.patchedFile)]

/-- `check`. -/
def Program.check (P : Program) (fix : CompilerFix) (file code : Bytes) (errorLine : ℤ) : Bool :=
  if P.checking ∨ fix.edits = [] ∨ code = [] then false
  else
    match P.entryLines with
    | none => false
    | some entry =>
      let original : ErrorKey := ⟨file, errorLine, code⟩
      let before := P.baselineErrors
      let same := sameError P.canonical
      if ¬ before.any (same · original) then false
      else
        let after := P.errors (P.buffers fix file entry)
        let allowed := before.filter fun K => !same K original
        TakeAway.takeAll same allowed after

end TurfLang.CompilerFixes
