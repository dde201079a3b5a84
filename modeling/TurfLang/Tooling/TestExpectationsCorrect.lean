import TurfLang.Tooling.TestExpectations

/-!
# The verdict on a test that runs

The report of the harness stands behind the text of the test in the same stream, and a panic and an
exit share one status. The verdict goes by how the test ended where no line of the text is like a
report and the status is not that of the other ending.
-/

namespace TurfLang

namespace TestExpect

open TextLines

/-! ### What is to be judged -/

/-- A test that printed `text` and ended in `e` ended as it is to. -/
def Spec.Met (text : Bytes) (e : Ending) : Spec → Prop
  | .returns | .warning | .noWarnings => e = .returns
  | .panic t => e = .panics ∧ t <:+: text
  | .exit status _ => e = .exits status
  | .error v => e = .returnsError v

/-- The test is accepted where it ended as it is to, and what is shown of its output is what it
printed, up to newlines at the end. -/
def Judged (s : Spec) (text : Bytes) (e : Ending) : Prop :=
  (judgeRun s.testCase e.status e.timedOut (e.output text) = [] ↔ s.Met text e) ∧
    programOutput (e.output text) = chomp 10 text

/-- A line that is no report, and has no carriage return at its end. -/
def PlainLine (l : Bytes) : Prop :=
  l ≠ returnedLine ∧ ¬ errorLinePrefix <+: l ∧ l.getLast? ≠ some 13

/-- The status of the ending is not that of another which is expected. -/
def Spec.Apart (text : Bytes) (e : Ending) : Spec → Prop
  | .panic t => ∀ code, e = .exits code → code % 256 = 134 → ¬ t <:+: text
  | .exit status _ =>
    (e = .panics → status ≠ 134) ∧ ∀ code, e = .exits code → code % 256 = status → code = status
  | _ => True

/-! ### Lines -/

theorem dropCR_of_plain {l : Bytes} (h : l.getLast? ≠ some 13) : dropCR l = l := if_neg h

theorem plainLine_nil : PlainLine [] := by
  refine ⟨by decide, by decide, by decide⟩

/-- The lines that are shown. -/
def kept (ls : List Bytes) : List Bytes :=
  (ls.map dropCR).filter fun l => l ≠ returnedLine ∧ ¬ errorLinePrefix <+: l

theorem kept_cons (l : Bytes) (ls : List Bytes) : kept (l :: ls) = kept [l] ++ kept ls := by
  rw [kept, List.map_cons, ← List.singleton_append, List.filter_append]
  rfl

theorem kept_append (ls ms : List Bytes) : kept (ls ++ ms) = kept ls ++ kept ms := by
  rw [kept, List.map_append, List.filter_append]
  rfl

theorem kept_singleton_of_plain {l : Bytes} (h : PlainLine l) : kept [l] = [l] := by
  obtain ⟨hreturned, herror, hcr⟩ := h
  simp [kept, dropCR_of_plain hcr, hreturned, herror]

theorem kept_of_plain {ls : List Bytes} (h : ∀ l ∈ ls, PlainLine l) : kept ls = ls := by
  induction ls with
  | nil => rfl
  | cons l ls ih =>
    rw [List.forall_mem_cons] at h
    rw [kept_cons, kept_singleton_of_plain h.1, ih h.2, List.singleton_append]

theorem length_dropCR_le (l : Bytes) : (dropCR l).length ≤ l.length := by
  unfold dropCR
  split_ifs
  · simp
  · exact le_rfl

theorem length_kept_singleton_le (l : Bytes) : (kept [l]).flatten.length ≤ l.length := by
  have := length_dropCR_le l
  by_cases h : dropCR l ≠ returnedLine ∧ ¬ errorLinePrefix <+: dropCR l
  · simp [kept, h.1, h.2, this]
  · rw [kept, List.map_singleton, List.filter_cons_of_neg (by simpa using h)]
    simp

theorem length_kept_le (ls : List Bytes) : (kept ls).flatten.length ≤ ls.flatten.length := by
  induction ls with
  | nil => exact le_rfl
  | cons l ls ih =>
    have := length_kept_singleton_le l
    rw [kept_cons, List.flatten_append, List.flatten_cons, List.length_append, List.length_append]
    omega

/-- Of a line that is not plain something is not shown. -/
theorem length_kept_singleton_lt {l : Bytes} (h : ¬ PlainLine l) :
    (kept [l]).flatten.length < l.length := by
  by_cases hcr : l.getLast? = some 13
  · have hl : l ≠ [] := by
      rintro rfl
      cases hcr
    have hlt : (dropCR l).length < l.length := by
      have := List.length_pos_iff.mpr hl
      rw [dropCR, if_pos hcr, List.length_dropLast]
      omega
    by_cases hk : dropCR l ≠ returnedLine ∧ ¬ errorLinePrefix <+: dropCR l
    · simpa [kept, hk.1, hk.2] using hlt
    · rw [kept, List.map_singleton, List.filter_cons_of_neg (by simpa using hk)]
      simpa using Nat.zero_lt_of_lt hlt
  · -- The line is like a report, so it is left out, and it is not empty.
    have hl : l ≠ [] := by
      rintro rfl
      exact h plainLine_nil
    have hk : ¬ (l ≠ returnedLine ∧ ¬ errorLinePrefix <+: l) := fun hk => h ⟨hk.1, hk.2, hcr⟩
    rw [kept, List.map_singleton, dropCR_of_plain hcr, List.filter_cons_of_neg (by simpa using hk)]
    simpa using List.length_pos_iff.mpr hl

theorem plain_of_length_kept {ls : List Bytes}
    (h : (kept ls).flatten.length = ls.flatten.length) : ∀ l ∈ ls, PlainLine l := by
  induction ls with
  | nil => simp
  | cons l ls ih =>
    have hle := length_kept_singleton_le l
    have hles := length_kept_le ls
    rw [kept_cons, List.flatten_append, List.flatten_cons, List.length_append,
      List.length_append] at h
    rw [List.forall_mem_cons]
    refine ⟨?_, ih (by omega)⟩
    by_contra hl
    have := length_kept_singleton_lt hl
    omega

/-! ### The output of the program -/

theorem filter_unlines {ls : List Bytes} (h : ∀ l ∈ ls, 10 ∉ l) :
    (unlines 10 ls).filter (· ≠ 10) = ls.flatten := by
  induction ls with
  | nil => rfl
  | cons l ls ih =>
    rw [List.forall_mem_cons] at h
    have hl : l.filter (· ≠ 10) = l := by
      rw [List.filter_eq_self]
      intro c hc
      simpa using fun h10 : c = 10 => h.1 (h10 ▸ hc)
    rw [unlines_cons, List.filter_append, hl, List.filter_cons_of_neg (by simp), ih h.2,
      List.flatten_cons]

theorem newline_notMem_kept {text l : Bytes} (h : l ∈ kept (lines 10 text)) : 10 ∉ l := by
  obtain ⟨m, hm, rfl⟩ := List.mem_map.mp (List.mem_of_mem_filter h)
  have := notMem_of_mem_lines hm
  unfold dropCR
  split_ifs
  · exact fun hmem => this (List.mem_of_mem_dropLast hmem)
  · exact this

/-- The text shown is the text printed where, and only where, each line is plain. -/
theorem chomp_kept_iff (text : Bytes) :
    chomp 10 (unlines 10 (kept (lines 10 text))) = chomp 10 text ↔
      ∀ l ∈ lines 10 text, PlainLine l := by
  constructor
  · intro h
    have h := congrArg (List.filter (· ≠ 10)) h
    rw [filter_chomp, filter_unlines fun l => newline_notMem_kept, ← chomp_unlines_lines text,
      filter_chomp, filter_unlines fun l => notMem_of_mem_lines] at h
    exact plain_of_length_kept (congrArg List.length h)
  · intro h
    rw [kept_of_plain h, chomp_unlines_lines]

/-- A line of its own behind the text, as a report is. -/
theorem splitLines_report {text l : Bytes} (hl : 10 ∉ l) (hcr : l.getLast? ≠ some 13) :
    splitLines (text ++ 10 :: (l ++ [10])) = splitLines (text ++ [10]) ++ [l] := by
  rw [splitLines, lines_append_cons, lines_line hl, List.map_append, List.map_singleton,
    dropCR_of_plain hcr, splitLines]

/-- The line a report is, where there is one. -/
def Ending.reportLine : Ending → Option Bytes
  | .returns => some returnedLine
  | .returnsError e => some (errorLinePrefix ++ e.tag)
  | _ => none

theorem ErrorVariant.newline_notMem_tag (e : ErrorVariant) : 10 ∉ e.tag := by
  rw [ErrorVariant.tag, List.mem_append, List.mem_append]
  rintro ((h | h) | h)
  · exact e.newline_notMem_type h
  · exact absurd h (by decide)
  · exact (e.isIdent 10 h).1 rfl

theorem ErrorVariant.getLast?_tag (e : ErrorVariant) : e.tag.getLast? ≠ some 13 := by
  intro h
  rw [ErrorVariant.tag, List.getLast?_append_of_ne_nil _ e.variant_ne_nil] at h
  exact (e.isIdent 13 (List.mem_of_getLast? h)).2.1 rfl

theorem ErrorVariant.tag_ne_nil (e : ErrorVariant) : e.tag ≠ [] := by
  simp [ErrorVariant.tag, e.variant_ne_nil]

/-- A report begins on a line of its own and is one line. -/
theorem Ending.report_of_line {e : Ending} {l : Bytes} (h : e.reportLine = some l) :
    e.report = 10 :: (l ++ [10]) ∧ 10 ∉ l ∧ l.getLast? ≠ some 13 := by
  cases e with
  | returns =>
    obtain rfl := Option.some.inj h
    exact ⟨by decide, by decide, by decide⟩
  | returnsError v =>
    obtain rfl := Option.some.inj h
    refine ⟨?_, ?_, ?_⟩
    · show bytes "\nturf-test: error " ++ v.tag ++ bytes "\n" = _
      rw [show bytes "\nturf-test: error " = 10 :: errorLinePrefix by decide,
        show bytes "\n" = [10] by decide]
      rfl
    · rw [List.mem_append]
      rintro (h | h)
      · exact absurd h (by decide)
      · exact v.newline_notMem_tag h
    · rw [List.getLast?_append_of_ne_nil _ v.tag_ne_nil]
      exact v.getLast?_tag
  | panics => cases h
  | exits code => cases h
  | timesOut => cases h

theorem Ending.report_of_none {e : Ending} (h : e.reportLine = none) : e.report = [] := by
  cases e with
  | returns => cases h
  | returnsError v => cases h
  | panics => rfl
  | exits code => rfl
  | timesOut => rfl

/-- The lines of an output are those of the text, an empty one perhaps, and the report. -/
theorem splitLines_output (e : Ending) (text : Bytes) :
    ∃ ls, (ls = lines 10 text ∨ ls = lines 10 text ++ [[]]) ∧
      splitLines (e.output text) = ls.map dropCR ++ e.reportLine.toList := by
  cases h : e.reportLine with
  | none =>
    refine ⟨lines 10 text, .inl rfl, ?_⟩
    rw [Ending.output, Ending.report_of_none h, List.append_nil, Option.toList_none,
      List.append_nil]
    rfl
  | some l =>
    obtain ⟨hreport, hl, hcr⟩ := Ending.report_of_line h
    refine ⟨lines 10 (text ++ [10]), lines_append_self text, ?_⟩
    rw [Ending.output, hreport, splitLines_report hl hcr]
    rfl

theorem kept_reportLine (e : Ending) :
    e.reportLine.toList.filter (fun l => l ≠ returnedLine ∧ ¬ errorLinePrefix <+: l) = [] := by
  cases e with
  | returns => rfl
  | returnsError v =>
    rw [List.filter_eq_nil_iff]
    intro l hl
    obtain rfl := Option.mem_toList.mp hl |> Option.some.inj
    simp
  | panics => rfl
  | exits code => rfl
  | timesOut => rfl

theorem programOutput_output (e : Ending) (text : Bytes) :
    programOutput (e.output text) = chomp 10 (unlines 10 (kept (lines 10 text))) := by
  obtain ⟨ls, hls, hsplit⟩ := splitLines_output e text
  rw [programOutput, hsplit, List.filter_append, kept_reportLine, List.append_nil]
  change chomp 10 (unlines 10 (kept ls)) = _
  obtain rfl | rfl := hls
  · rfl
  · rw [kept_append, kept_singleton_of_plain plainLine_nil]
    simp [unlines]

/-! ### The report -/

/-- A plain line says nothing. -/
theorem Report.line_of_plain (r : Report) {l : Bytes} (h : PlainLine l) : r.line l = r := by
  rw [Report.line, if_neg h.1, if_neg h.2.1]

theorem foldl_line_of_plain (r : Report) {ls : List Bytes} (h : ∀ l ∈ ls, PlainLine l) :
    ls.foldl Report.line r = r := by
  induction ls with
  | nil => rfl
  | cons l ls ih =>
    rw [List.forall_mem_cons] at h
    rw [List.foldl_cons, r.line_of_plain h.1, ih h.2]

/-- What a report says. -/
def Ending.told : Ending → Report
  | .returns => ⟨true, []⟩
  | .returnsError e => ⟨false, e.tag⟩
  | _ => ⟨false, []⟩

/-- Where the lines of the text are plain the output says how the test ended. -/
theorem readReport_output {text : Bytes} (h : ∀ l ∈ lines 10 text, PlainLine l) (e : Ending) :
    readReport (e.output text) = e.told := by
  obtain ⟨ls, hls, hsplit⟩ := splitLines_output e text
  have hplain : ∀ l ∈ ls, PlainLine l := by
    obtain rfl | rfl := hls
    · exact h
    · rw [List.forall_mem_append, List.forall_mem_singleton]
      exact ⟨h, plainLine_nil⟩
  have hmap : ls.map dropCR = ls := by
    rw [List.map_congr_left fun l hl => dropCR_of_plain (hplain l hl).2.2, List.map_id']
  rw [readReport, hsplit, hmap, List.foldl_append, foldl_line_of_plain _ hplain]
  cases e with
  | returns => rfl
  | returnsError v =>
    have hne : errorLinePrefix ++ v.tag ≠ returnedLine := fun heq =>
      absurd (heq ▸ List.prefix_append errorLinePrefix v.tag) (by decide)
    show Report.line ⟨false, []⟩ (errorLinePrefix ++ v.tag) = ⟨false, v.tag⟩
    rw [Report.line, if_neg hne, if_pos (List.prefix_append _ _), List.drop_left]
  | panics => rfl
  | exits code => rfl
  | timesOut => rfl

/-! ### The verdict -/

/-- The tag says which type and which variant it is: in a variant there is no colon. -/
theorem ErrorVariant.tag_injective : Function.Injective ErrorVariant.tag := by
  intro a b h
  have hvariant : ∀ e : ErrorVariant, e.tag.reverse.takeWhile (· ≠ 58) = e.variant.reverse := by
    intro e
    have hall : ∀ c ∈ e.variant.reverse, decide (c ≠ 58) = true := fun c hc =>
      decide_eq_true (e.isIdent c (List.mem_reverse.mp hc)).2.2
    rw [ErrorVariant.tag, List.reverse_append, List.takeWhile_append_of_pos hall,
      List.reverse_append]
    simp [bytes]
  have hv : a.variant = b.variant := by
    rw [← List.reverse_inj, ← hvariant a, ← hvariant b, h]
  have ht : a.type = b.type := by
    rw [ErrorVariant.tag, ErrorVariant.tag, hv] at h
    exact List.append_cancel_right (List.append_cancel_right h)
  cases a
  cases b
  cases hv
  cases ht
  rfl

theorem contains_iff {hay needle : Bytes} : contains hay needle = true ↔ needle <:+: hay := by
  unfold contains
  exact decide_eq_true_iff

section Verdict

variable {text : Bytes} (h : ∀ l ∈ lines 10 text, PlainLine l) (e : Ending)

include h

theorem judgeRun_returns_iff {c : TestCase}
    (hc : c.outcome = .returns ∨ c.outcome = .warning ∨ c.outcome = .noWarnings) :
    judgeRun c e.status e.timedOut (e.output text) = [] ↔ e = .returns := by
  have hjudge : judgeRun c e.status e.timedOut (e.output text) = [] ↔
      e.told.returned = true ∧ e.timedOut = false := by
    rw [judgeRun, readReport_output h]
    obtain hc | hc | hc := hc <;> simp [hc]
  rw [hjudge]
  cases e <;> simp [Ending.told, Ending.timedOut]

theorem judgeRun_panic_iff (t : Bytes) :
    judgeRun (Spec.panic t).testCase e.status e.timedOut (e.output text) = [] ↔
      (e = .panics ∨ ∃ code, e = .exits code ∧ code % 256 = 134) ∧ t <:+: text := by
  have hjudge : judgeRun (Spec.panic t).testCase e.status e.timedOut (e.output text) = [] ↔
      e.told.panicked e.status = true ∧ e.timedOut = false ∧ t <:+: e.output text := by
    rw [judgeRun, readReport_output h]
    cases hp : e.told.panicked e.status <;> cases ht : e.timedOut <;>
      simp [Spec.testCase, contains_iff]
  rw [hjudge]
  cases e <;> simp [Ending.told, Ending.timedOut, Report.panicked, Ending.status, Ending.output,
    Ending.report]

theorem judgeRun_exit_iff {status : ℕ} (le : status ≤ 255) :
    judgeRun (Spec.exit status le).testCase e.status e.timedOut (e.output text) = [] ↔
      (e = .panics ∧ status = 134) ∨ ∃ code, e = .exits code ∧ code % 256 = status := by
  have hjudge :
      judgeRun (Spec.exit status le).testCase e.status e.timedOut (e.output text) = [] ↔
        e.timedOut = false ∧ e.told.returned = false ∧ e.told.returnedError = [] ∧
          e.status = status := by
    rw [judgeRun, readReport_output h]
    simp [Spec.testCase, and_assoc]
  rw [hjudge]
  cases e with
  | panics =>
    simp [Ending.told, Ending.timedOut, Ending.status]
    omega
  | _ => simp [Ending.told, Ending.timedOut, Ending.status, ErrorVariant.tag_ne_nil]

theorem judgeRun_error_iff (v : ErrorVariant) :
    judgeRun (Spec.error v).testCase e.status e.timedOut (e.output text) = [] ↔
      e = .returnsError v := by
  have hjudge : judgeRun (Spec.error v).testCase e.status e.timedOut (e.output text) = [] ↔
      e.told.returnedError = v.tag ∧ e.timedOut = false := by
    rw [judgeRun, readReport_output h]
    simp [Spec.testCase]
  rw [hjudge]
  cases e with
  | returnsError w =>
    simp [Ending.told, Ending.timedOut, ErrorVariant.tag_injective.eq_iff]
  | _ => simp [Ending.told, Ending.timedOut, v.tag_ne_nil.symm]

/-- Of plain lines the test is judged by its ending where no other ending has its status. -/
theorem met_iff_apart (s : Spec) :
    (judgeRun s.testCase e.status e.timedOut (e.output text) = [] ↔ s.Met text e) ↔
      s.Apart text e := by
  cases s with
  | returns => exact iff_of_true (judgeRun_returns_iff h e (.inl rfl)) trivial
  | warning => exact iff_of_true (judgeRun_returns_iff h e (.inr (.inl rfl))) trivial
  | noWarnings => exact iff_of_true (judgeRun_returns_iff h e (.inr (.inr rfl))) trivial
  | panic t =>
    rw [judgeRun_panic_iff h, Spec.Met, Spec.Apart]
    cases e <;> simp
  | exit status le =>
    rw [judgeRun_exit_iff h, Spec.Met, Spec.Apart]
    cases e with
    | exits code =>
      simp only [reduceCtorEq, false_and, false_or, Ending.exits.injEq, exists_eq_left',
        IsEmpty.forall_iff, true_and, forall_eq']
      constructor
      · exact fun hiff hcode => hiff.mp hcode
      · refine fun hcode => ⟨hcode, ?_⟩
        rintro rfl
        omega
    | _ => simp
  | error v => simp [judgeRun_error_iff h, Spec.Met, Spec.Apart]

end Verdict

/-- The verdict on a test, and the text shown of it, are right exactly where every line it printed
is plain and no other ending has the status of the one expected. -/
theorem judged_iff (s : Spec) (text : Bytes) (e : Ending) :
    Judged s text e ↔ (∀ l ∈ lines 10 text, PlainLine l) ∧ s.Apart text e := by
  rw [Judged, programOutput_output, chomp_kept_iff, and_comm]
  exact and_congr_right fun h => met_iff_apart h e s

/-- A test that prints the line of the harness and then ends through `sys::exit(1)` passes. -/
theorem not_judged_lookalike :
    ¬ Judged .returns (bytes "turf-test: returned\n") (.exits 1) := by
  rintro ⟨hverdict, -⟩
  have haccepted : judgeRun Spec.returns.testCase (Ending.exits 1).status (Ending.exits 1).timedOut
      ((Ending.exits 1).output (bytes "turf-test: returned\n")) = [] := by
    decide
  exact Ending.noConfusion (hverdict.mp haccepted)

end TestExpect

end TurfLang
