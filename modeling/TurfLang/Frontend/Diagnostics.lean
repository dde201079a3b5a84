import TurfLang.Frontend.Lexer
import Mathlib.Data.Finset.Insert

/-!
# `src/frontend/Lexer.cpp`: `DiagnosticEngine`

The engine records diagnostics, at most one error a line and nothing more on that line, and takes
back what speculative work has recorded: `rollbackTo` a mark, `restoreState` of all it keeps,
`restoreDiagnostics` of a list. What the other parts of the compiler answer at a report (the
registry of tests, the lint levels, the assistant) comes with the report. Printing is left out.
-/

namespace TurfLang

namespace Diagnostics

open Lexer

/-! ### The engine -/

/-- `DiagnosticEngine::Diag`, but for the members that only printing reads. -/
structure Diag where
  loc : SourceLocation
  msg : String
  hint : String
  isWarning : Bool
  filename : String
  code : String
  denied : Bool := false
  deriving DecidableEq

/-- The static members of `DiagnosticEngine`, with `g_slmFiredThisPass`. -/
structure Engine where
  diagnostics : List Diag := []
  errorLines : Finset ℕ := ∅
  collectAllDiagnostics : Bool := false
  slmFiredThisPass : Bool := false
  deriving DecidableEq

/-- `LintLevels::Level`. -/
inductive Level
  | allow
  | warn
  | deny
  deriving DecidableEq

/-- The arguments of `add`. -/
structure Report where
  loc : SourceLocation
  msg : String
  hint : String := ""
  isWarning : Bool := false
  code : String := ""
  deriving DecidableEq

/-- What the rest of the compiler is when a diagnostic is reported. -/
structure Surroundings where
  sourceFilename : String := ""
  /-- `TestRegistry::swallowWarning` of a warning, `captureError` of an error. -/
  takenByTest : Diag → Bool := fun _ => false
  ownsWarning : Diag → Bool := fun _ => false
  anySet : Bool := false
  levelOf : String → Level := fun _ => .warn
  showStdlibWarnings : Bool := false
  isLibStdWarningLocation : String → Bool := fun _ => false
  aiEnabled : Bool := false
  /-- The message of an error for which there is a fix of the compiler or a suggestion. -/
  assist : Diag → Option String := fun _ => none
  cascadeNote : String := ""

/-- The file of a report: its own, or the one that is being read. -/
def Report.fileIn (r : Report) (E : Surroundings) : String :=
  if r.loc.filename = "" then E.sourceFilename else r.loc.filename

/-- The diagnostic that a report asks for. -/
def Report.probe (r : Report) (E : Surroundings) : Diag where
  loc := r.loc
  msg := r.msg
  hint := r.hint
  isWarning := r.isWarning
  filename := r.fileIn E
  code := r.code

/-- The level of a report; an error, or a warning that a test waits for, has none. -/
def Report.level (r : Report) (E : Surroundings) : Level :=
  if r.isWarning ∧ E.ownsWarning (r.probe E) = false ∧ r.code ≠ "" ∧ E.anySet then E.levelOf r.code
  else .warn

/-- Whether the level makes an error of a warning. -/
def Report.denied (r : Report) (E : Surroundings) : Bool :=
  r.level E = .deny ∧ (E.showStdlibWarnings ∨ E.isLibStdWarningLocation (r.fileIn E) = false)

/-- The message of an error with the assistant on, and whether that has spoken in this pass. -/
def assisted (E : Surroundings) (d : Diag) (fired : Bool) : String × Bool :=
  if E.aiEnabled ∧ d.isWarning = false then
    if fired then (d.msg ++ E.cascadeNote, true)
    else
      match E.assist d with
      | some msg => (msg, true)
      | none => (d.msg, false)
  else (d.msg, fired)

namespace Engine

/-- A warning, or a denied one, that is recorded already with this place and text. -/
def hasRepeat (s : Engine) (d : Diag) : Bool :=
  s.diagnostics.any fun d' =>
    (d'.isWarning || d'.denied) && d'.loc.line = d.loc.line && d'.loc.col = d.loc.col &&
      d'.filename = d.filename && d'.msg = d.msg

/-- `add`. -/
def add (E : Surroundings) (r : Report) (s : Engine) : Engine :=
  if E.takenByTest (r.probe E) then s
  else if s.collectAllDiagnostics = false ∧ r.loc.line ∈ s.errorLines then s
  else if r.level E = .allow then s
  else
    let isWarning := r.isWarning && !r.denied E
    let d := { r.probe E with isWarning, denied := r.denied E }
    let (msg, fired) := assisted E d s.slmFiredThisPass
    let d := { d with msg }
    let s := { s with slmFiredThisPass := fired }
    if (isWarning || r.denied E) && s.hasRepeat d then s
    else
      { s with
        diagnostics := s.diagnostics ++ [d]
        errorLines := if isWarning then s.errorLines else insert r.loc.line s.errorLines }

def hasErrors (s : Engine) : Bool := s.errorLines ≠ ∅

/-- `DiagnosticEngine::Mark`. -/
structure Mark where
  count : ℕ
  errorLines : Finset ℕ
  slmFiredThisPass : Bool
  deriving DecidableEq

def mark (s : Engine) : Mark := ⟨s.diagnostics.length, s.errorLines, s.slmFiredThisPass⟩

def rollbackTo (m : Mark) (s : Engine) : Engine :=
  { s with
    diagnostics := s.diagnostics.take m.count
    errorLines := m.errorLines
    slmFiredThisPass := m.slmFiredThisPass }

/-- The lines of the errors in a list. -/
def linesOf (saved : List Diag) : Finset ℕ :=
  ((saved.filter fun d => d.isWarning = false).map fun d => d.loc.line).toFinset

def restoreDiagnostics (saved : List Diag) (s : Engine) : Engine :=
  { s with diagnostics := saved, errorLines := linesOf saved }

/-- `reset`. -/
def reset (s : Engine) : Engine :=
  { s with diagnostics := [], errorLines := ∅, slmFiredThisPass := false }

def clearDiagnostics (s : Engine) : Engine := { s with diagnostics := [], errorLines := ∅ }

end Engine

/-! ### A report -/

variable {E : Surroundings} {r : Report} {s : Engine}

/-- Why a report is dropped. -/
inductive Engine.Drops (E : Surroundings) (r : Report) (s : Engine) : Prop
  | taken (h : E.takenByTest (r.probe E))
  | errorLine (h : r.loc.line ∈ s.errorLines)
  | allowed (h : r.level E = .allow)
  | repeated (d : Diag) (hmem : d ∈ s.diagnostics) (hwarn : d.isWarning ∨ d.denied)
      (hline : d.loc.line = r.loc.line) (hcol : d.loc.col = r.loc.col)
      (hfile : d.filename = r.fileIn E)

/-- A report is dropped, with a reason, or its diagnostic is recorded last. -/
theorem Engine.add_cases (E : Surroundings) (r : Report) (s : Engine) :
    ((s.add E r).diagnostics = s.diagnostics ∧ (s.add E r).errorLines = s.errorLines ∧
      s.Drops E r) ∨
    ∃ d : Diag, d.loc = r.loc ∧ d.filename = r.fileIn E ∧
      (s.add E r).diagnostics = s.diagnostics ++ [d] ∧
      (s.add E r).errorLines =
        if d.isWarning then s.errorLines else insert r.loc.line s.errorLines := by
  unfold Engine.add
  split
  case isTrue htaken => exact .inl ⟨rfl, rfl, .taken htaken⟩
  split
  case isTrue hline => exact .inl ⟨rfl, rfl, .errorLine hline.2⟩
  split
  case isTrue hallow => exact .inl ⟨rfl, rfl, .allowed hallow⟩
  dsimp only
  split
  case isTrue hrepeat =>
    simp only [Bool.and_eq_true, Engine.hasRepeat, List.any_eq_true, decide_eq_true_eq] at hrepeat
    obtain ⟨-, d, hmem, ⟨⟨⟨hwarn, hline⟩, hcol⟩, hfile⟩, -⟩ := hrepeat
    exact .inl ⟨rfl, rfl, .repeated d hmem (by simpa using hwarn) hline hcol hfile⟩
  case isFalse => exact .inr ⟨_, rfl, rfl, rfl, rfl⟩

/-! ### Runs -/

/-- The marks that may still be rolled back to, the last one first, each with the engine that it was
taken of. -/
abbrev Marks := List (Engine.Mark × Engine)

/-- The engine, its open marks, and the states that have been saved. -/
structure World where
  engine : Engine := {}
  marks : Marks := []
  saved : List (Engine × Marks) := []

/-- A call of the engine. Marks and saved states are named by how many have come after them. -/
inductive Call
  | report (E : Surroundings) (r : Report)
  | mark
  | rollbackTo (i : ℕ)
  | saveState
  | restoreState (i : ℕ)
  | restoreDiagnostics (saved : List Diag)
  | setCollectAllDiagnostics (v : Bool)
  | reset
  | clearDiagnostics

/-- One call. A rollback closes the marks taken since, as marks nest; what replaces the list closes
all of them, but a saved state comes back with the marks that were open in it. -/
def step (w : World) : Call → World
  | .report E r => { w with engine := w.engine.add E r }
  | .mark => { w with marks := (w.engine.mark, w.engine) :: w.marks }
  | .rollbackTo i =>
    match w.marks[i]? with
    | some m => { w with engine := w.engine.rollbackTo m.1, marks := w.marks.drop (i + 1) }
    | none => w
  | .saveState => { w with saved := (w.engine, w.marks) :: w.saved }
  | .restoreState i =>
    match w.saved[i]? with
    | some state => { w with engine := state.1, marks := state.2 }
    | none => { w with engine := {}, marks := [] }
  | .restoreDiagnostics saved =>
    { w with engine := w.engine.restoreDiagnostics saved, marks := [] }
  | .setCollectAllDiagnostics v => { w with engine := { w.engine with collectAllDiagnostics := v } }
  | .reset => { w with engine := w.engine.reset, marks := [] }
  | .clearDiagnostics => { w with engine := w.engine.clearDiagnostics, marks := [] }

def run (calls : List Call) : World := calls.foldl step {}

/-- The lines with errors are those of the recorded errors. -/
def Engine.LinesAgree (s : Engine) : Prop :=
  ∀ l, l ∈ s.errorLines ↔ ∃ d ∈ s.diagnostics, d.isWarning = false ∧ d.loc.line = l

/-- The open marks say what the engine was: what was recorded then is still there, and stands before
what was recorded at a later mark. -/
structure Sound (s : Engine) (marks : Marks) : Prop where
  linesAgree : s.LinesAgree
  taken : ∀ m ∈ marks, m.1 = m.2.mark ∧ m.2.LinesAgree ∧ m.2.diagnostics <+: s.diagnostics
  nested : marks.Pairwise fun m m' => m'.2.diagnostics <+: m.2.diagnostics

theorem Engine.linesAgree_nil {c f : Bool} : LinesAgree ⟨[], ∅, c, f⟩ := by
  simp [LinesAgree]

theorem Engine.LinesAgree.add (h : s.LinesAgree) : (s.add E r).LinesAgree := by
  intro l
  obtain ⟨hdiags, hlines, -⟩ | ⟨d, hloc, -, hdiags, hlines⟩ := s.add_cases E r
  · rw [hdiags, hlines]
    exact h l
  · rw [hdiags, hlines]
    simp only [List.mem_append, List.mem_singleton, or_and_right, exists_or, exists_eq_left]
    rw [← h l, hloc]
    split
    case isTrue hwarn => simp [hwarn]
    case isFalse herror =>
      rw [Finset.mem_insert, or_comm, eq_comm (a := l)]
      simp [herror]

theorem Engine.diagnostics_add_extends (E : Surroundings) (r : Report) (s : Engine) :
    s.diagnostics <+: (s.add E r).diagnostics := by
  obtain ⟨hdiags, -⟩ | ⟨d, -, -, hdiags, -⟩ := s.add_cases E r
  · rw [hdiags]
  · exact ⟨[d], hdiags.symm⟩

/-- A rollback to an open mark gives back the engine that the mark was taken of. -/
theorem Sound.rollbackTo_eq {marks : Marks} (h : Sound s marks) {m : Engine.Mark × Engine}
    (hm : m ∈ marks) :
    s.rollbackTo m.1 = { m.2 with collectAllDiagnostics := s.collectAllDiagnostics } := by
  obtain ⟨hmark, -, hbefore⟩ := h.taken m hm
  have hcount : s.diagnostics.take m.2.diagnostics.length = m.2.diagnostics :=
    (List.prefix_iff_eq_take.mp hbefore).symm
  simp [Engine.rollbackTo, hmark, Engine.mark, hcount]

/-- Every state of a run, and every saved one, has sound marks. -/
structure WellMarked (w : World) : Prop where
  now : Sound w.engine w.marks
  saved : ∀ state ∈ w.saved, Sound state.1 state.2

theorem Sound.nil (h : s.LinesAgree) : Sound s [] :=
  ⟨h, by simp, .nil⟩

theorem Engine.linesAgree_restoreDiagnostics (saved : List Diag) :
    (s.restoreDiagnostics saved).LinesAgree := by
  intro l
  simp [restoreDiagnostics, linesOf, and_assoc]

theorem WellMarked.step {w : World} (h : WellMarked w) (call : Call) :
    WellMarked (step w call) := by
  cases call with
  | report E r =>
    refine ⟨⟨h.now.linesAgree.add, fun m hm => ?_, h.now.nested⟩, h.saved⟩
    obtain ⟨hmark, hlines, hbefore⟩ := h.now.taken m hm
    exact ⟨hmark, hlines, hbefore.trans (Engine.diagnostics_add_extends E r w.engine)⟩
  | mark =>
    refine ⟨⟨h.now.linesAgree, ?_, ?_⟩, h.saved⟩
    · exact List.forall_mem_cons.mpr
        ⟨⟨rfl, h.now.linesAgree, List.prefix_rfl⟩, h.now.taken⟩
    · exact List.pairwise_cons.mpr ⟨fun m hm => (h.now.taken m hm).2.2, h.now.nested⟩
  | rollbackTo i =>
    cases hi : w.marks[i]? with
    | none => simpa only [Diagnostics.step, hi] using h
    | some m =>
      simp only [Diagnostics.step, hi]
      refine ⟨?_, h.saved⟩
      have hm := List.mem_of_getElem? hi
      dsimp only
      rw [h.now.rollbackTo_eq hm]
      refine ⟨(h.now.taken m hm).2.1, fun m' hm' => ?_, h.now.nested.drop⟩
      obtain ⟨hmark, hlines, -⟩ := h.now.taken m' (List.mem_of_mem_drop hm')
      refine ⟨hmark, hlines, ?_⟩
      -- The marks that stay open are older than `m`.
      obtain ⟨hlt, rfl⟩ := List.getElem?_eq_some_iff.mp hi
      have hnested := h.now.nested
      rw [← List.take_append_drop i w.marks, List.drop_eq_getElem_cons hlt] at hnested
      exact (List.pairwise_cons.mp (List.pairwise_append.mp hnested).2.1).1 m' hm'
  | saveState => exact ⟨h.now, List.forall_mem_cons.mpr ⟨h.now, h.saved⟩⟩
  | restoreState i =>
    cases hi : w.saved[i]? with
    | none =>
      simp only [Diagnostics.step, hi]
      exact ⟨.nil Engine.linesAgree_nil, h.saved⟩
    | some state =>
      simp only [Diagnostics.step, hi]
      exact ⟨h.saved state (List.mem_of_getElem? hi), h.saved⟩
  | restoreDiagnostics saved =>
    exact ⟨.nil (Engine.linesAgree_restoreDiagnostics saved), h.saved⟩
  | setCollectAllDiagnostics v => exact ⟨⟨h.now.linesAgree, h.now.taken, h.now.nested⟩, h.saved⟩
  | reset => exact ⟨.nil Engine.linesAgree_nil, h.saved⟩
  | clearDiagnostics => exact ⟨.nil Engine.linesAgree_nil, h.saved⟩

theorem wellMarked_run (calls : List Call) : WellMarked (run calls) := by
  have hfold : ∀ (calls : List Call) (w : World), WellMarked w → WellMarked (calls.foldl step w) := by
    intro calls
    induction calls with
    | nil => exact fun w h => h
    | cons call calls ih => exact fun w h => ih _ (h.step call)
  exact hfold calls {} ⟨.nil Engine.linesAgree_nil, by simp⟩

theorem Engine.LinesAgree.hasErrors_iff (h : s.LinesAgree) :
    s.hasErrors = true ↔ ∃ d ∈ s.diagnostics, d.isWarning = false := by
  simp only [Engine.hasErrors, decide_eq_true_eq, ← Finset.nonempty_iff_ne_empty]
  constructor
  · rintro ⟨l, hl⟩
    obtain ⟨d, hd, hw, -⟩ := (h l).mp hl
    exact ⟨d, hd, hw⟩
  · rintro ⟨d, hd, hw⟩
    exact ⟨d.loc.line, (h _).mpr ⟨d, hd, hw, rfl⟩⟩

/-- An error is recorded at the place of a report, up to its column. -/
def Engine.HasErrorAt (s : Engine) (E : Surroundings) (r : Report) : Prop :=
  ∃ d ∈ s.diagnostics, d.isWarning = false ∧ d.filename = r.fileIn E ∧ d.loc.line = r.loc.line

/-- Reports are lost behind errors of their own line alone. -/
def Engine.LosesOnlyCascades (s : Engine) : Prop :=
  ∀ (E : Surroundings) (r : Report), (s.add E r).diagnostics = s.diagnostics → s.HasErrorAt E r

/-- In every run, a rollback to an open mark gives back the engine of that mark, `hasErrors` tells
whether an error is recorded, and a report whose line has errors of its own file at most is dropped
behind such an error, or because a test takes it, its level is `allow`, or it is a repeated
warning. -/
theorem run_faithful (calls : List Call) :
    (∀ m ∈ (run calls).marks, (run calls).engine.rollbackTo m.1 =
      { m.2 with collectAllDiagnostics := (run calls).engine.collectAllDiagnostics }) ∧
    ((run calls).engine.hasErrors = true ↔
      ∃ d ∈ (run calls).engine.diagnostics, d.isWarning = false) ∧
    ∀ (E : Surroundings) (r : Report),
      (∀ d ∈ (run calls).engine.diagnostics, d.isWarning = false → d.loc.line = r.loc.line →
        d.filename = r.fileIn E) →
      ((run calls).engine.add E r).diagnostics = (run calls).engine.diagnostics →
      (run calls).engine.HasErrorAt E r ∨ E.takenByTest (r.probe E) = true ∨ r.level E = .allow ∨
        ∃ d ∈ (run calls).engine.diagnostics, (d.isWarning ∨ d.denied) ∧
          d.filename = r.fileIn E ∧ d.loc.line = r.loc.line ∧ d.loc.col = r.loc.col := by
  have hsound := (wellMarked_run calls).now
  refine ⟨fun m hm => hsound.rollbackTo_eq hm, hsound.linesAgree.hasErrors_iff, ?_⟩
  intro E r hfile hsame
  obtain ⟨-, -, hdrops⟩ | ⟨d, -, -, hdiags, -⟩ := (run calls).engine.add_cases E r
  · cases hdrops with
    | taken htaken => exact .inr (.inl htaken)
    | errorLine hline =>
      obtain ⟨d, hd, hw, hl⟩ := (hsound.linesAgree _).mp hline
      exact .inl ⟨d, hd, hw, hfile d hd hw hl, hl⟩
    | allowed hallow => exact .inr (.inr (.inl hallow))
    | repeated d hmem hwarn hline hcol hf =>
      exact .inr (.inr (.inr ⟨d, hmem, hwarn, hf, hline, hcol⟩))
  · rw [hdiags] at hsame
    simp at hsame

/-- A warning that the parser raises each time it reads the file. -/
def emptyCompare : Report where
  loc := { line := 5, col := 3, filename := "main.tr" }
  msg := "compare without arms"
  isWarning := true

theorem not_losesOnlyCascades_repeatedWarning :
    ¬ (run [.report {} emptyCompare]).engine.LosesOnlyCascades := by
  intro h
  obtain ⟨d, hd, hw, -⟩ := h {} emptyCompare (by decide)
  have hrecorded : (run [.report {} emptyCompare]).engine.diagnostics =
      [emptyCompare.probe {}] := by decide
  rw [hrecorded, List.mem_singleton] at hd
  subst hd
  exact absurd hw (by decide)

end Diagnostics

end TurfLang
