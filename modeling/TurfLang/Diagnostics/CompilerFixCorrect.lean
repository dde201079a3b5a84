import TurfLang.Diagnostics.CompilerFix
import TurfLang.Lib.Spans

/-!
# A fix replaces the spans of its edits and nothing else

The edits of a fix are spans of the lines. `build` sorts them, refuses the lists it cannot order
without a guess, and writes the lines they touch from left to right; what comes out is every line
with its spans replaced, in whatever order the edits were given. `check` counts the errors of
each key before and after.
-/

namespace TurfLang.CompilerFixes

open Spans (Span replace splice)

/-! ### What the edits say -/

/-- The edit that a fix-it becomes. -/
def FixIt.edit (errorLine : ℤ) (F : FixIt) : Edit :=
  ⟨if F.line = 0 then errorLine else F.line, F.startCol, F.endCol, F.replacement⟩

/-- The text of a line, counted from 1. -/
def textAt (lines : List Bytes) (line : ℤ) : Bytes := lines.getD (line - 1).toNat []

/-- An edit of a span of one line, by a text within one line. -/
structure Edit.InRange (lines : List Bytes) (E : Edit) : Prop where
  noNewline : 10 ∉ E.replacement
  line_pos : 1 ≤ E.line
  line_le : E.line ≤ lines.length
  start_pos : 1 ≤ E.startCol
  le : E.startCol ≤ E.endCol
  fits : E.endCol ≤ (textAt lines E.line).length + 1

/-- Two edits that start at one place, or of which one starts inside the other. -/
def Edit.Clash (A B : Edit) : Prop :=
  A.line = B.line ∧ (A.startCol = B.startCol ∨ (A.startCol < B.startCol ∧ B.startCol < A.endCol) ∨
    (B.startCol < A.startCol ∧ A.startCol < B.endCol))

theorem Edit.Clash.symm {A B : Edit} (h : A.Clash B) : B.Clash A := by
  unfold Clash at h ⊢
  omega

instance : Std.Symm fun A B : Edit => ¬ A.Clash B := ⟨fun _ _ h hc => h hc.symm⟩

/-- The text of a span is not what replaces it. -/
def Edit.Changes (lines : List Bytes) (E : Edit) : Prop :=
  ((textAt lines E.line).drop (E.startCol - 1).toNat).take (E.endCol - E.startCol).toNat ≠
    E.replacement

instance (lines : List Bytes) (E : Edit) : Decidable (E.Changes lines) := by
  unfold Edit.Changes; infer_instance

/-- The positions in its line that an edit replaces. -/
def Edit.span (E : Edit) : Span UInt8 :=
  ⟨(E.startCol - 1).toNat, max (E.startCol - 1).toNat (E.endCol - 1).toNat, E.replacement,
    le_max_left ..⟩

/-- The spans of one line. -/
def spansOf (edits : List Edit) (line : ℤ) : List (Span UInt8) :=
  (edits.filter fun E => E.line = line).map Edit.span

/-- The lines with the spans of the edits replaced. -/
def patch (lines : List Bytes) (edits : List Edit) : List Bytes :=
  lines.mapIdx fun i text => replace text (spansOf edits (i + 1))

variable {lines : List Bytes} {errorLine : ℤ} {edits : List Edit} {E A B : Edit}

/-! ### The checks -/

theorem lineAt_eq {line : ℤ} (hpos : 1 ≤ line) (hle : line ≤ lines.length) :
    lineAt lines line = .ok (textAt lines line) := by
  have hlt : (line - 1).toNat < lines.length := by omega
  rw [lineAt, textAt, List.getD_eq_getElem?_getD, List.getElem?_eq_getElem hlt]
  exact if_neg (not_lt.mpr hpos)

/-- The checks that `collect` makes of a fix-it. -/
theorem collect_cons (F : FixIt) (fixIts : List FixIt) :
    ((F.edit errorLine).InRange lines → collect errorLine lines (F :: fixIts) =
      (collect errorLine lines fixIts).bind fun edits => .ok (F.edit errorLine :: edits)) ∧
    (¬ (F.edit errorLine).InRange lines →
      collect errorLine lines (F :: fixIts) = .error .refused) := by
  constructor
  · rintro ⟨hnl, hpos, hle, hstart, hcol, hfits⟩
    simp only [FixIt.edit] at hnl hpos hle hstart hcol hfits
    rw [collect, if_neg (by push Not; exact ⟨hpos, hle, hnl⟩), lineAt_eq hpos hle]
    show (if _ then _ else _) = _
    rw [if_neg (by push Not; exact ⟨hstart, hcol, hfits⟩)]
    rfl
  · intro hno
    rw [collect]
    by_cases hbad : (if F.line = 0 then errorLine else F.line) < 1 ∨
        (if F.line = 0 then errorLine else F.line) > lines.length ∨ 10 ∈ F.replacement
    · rw [if_pos hbad]
    · rw [if_neg hbad]
      push Not at hbad
      obtain ⟨hpos, hle, hnl⟩ := hbad
      rw [lineAt_eq hpos hle]
      show (if _ then _ else _) = _
      rw [if_pos]
      by_contra hfine
      push Not at hfine
      exact hno ⟨hnl, hpos, hle, hfine.1, hfine.2.1, hfine.2.2⟩

theorem collect_eq_ok {fixIts : List FixIt}
    (h : ∀ E ∈ fixIts.map (FixIt.edit errorLine), E.InRange lines) :
    collect errorLine lines fixIts = .ok (fixIts.map (FixIt.edit errorLine)) := by
  induction fixIts with
  | nil => rfl
  | cons F fixIts ih =>
    rw [List.map_cons, List.forall_mem_cons] at h
    rw [(collect_cons F fixIts).1 h.1, ih h.2]
    rfl

theorem collect_eq_refused {fixIts : List FixIt}
    (h : ∃ E ∈ fixIts.map (FixIt.edit errorLine), ¬ E.InRange lines) :
    collect errorLine lines fixIts = .error .refused := by
  induction fixIts with
  | nil => simp at h
  | cons F fixIts ih =>
    by_cases hF : (F.edit errorLine).InRange lines
    · rw [List.map_cons, List.exists_mem_cons_iff] at h
      rw [(collect_cons F fixIts).1 hF, ih (h.resolve_left (not_not.mpr hF))]
      rfl
    · exact (collect_cons F fixIts).2 hF

/-- The first edit comes before the second one and leaves it its place. -/
def Edit.Before (A B : Edit) : Prop :=
  A.line < B.line ∨ A.line = B.line ∧ A.endCol ≤ B.startCol ∧ A.startCol < B.startCol

theorem Edit.Before.trans {A B C : Edit} (h : A.Before B) (h' : B.Before C) : A.Before C := by
  unfold Before at *
  omega

instance : IsTrans Edit Edit.Before := ⟨fun _ _ _ => Edit.Before.trans⟩

/-- Of two edits in order, neighbours clash when the second one does not come behind the first. -/
theorem before_iff (h : ¬ B.less A) : clashes A B = false ↔ A.Before B := by
  unfold Edit.less at h
  unfold clashes Edit.Before
  rw [decide_eq_false_iff_not]
  split at h <;> omega

/-- Of two edits in order, the second one comes behind the first unless they clash. -/
theorem before_iff_not_clash (h : ¬ B.less A) : A.Before B ↔ ¬ A.Clash B := by
  unfold Edit.less at h
  unfold Edit.Clash Edit.Before
  split at h <;> omega

/-- In a sorted list no neighbours clash when each edit comes behind the one before it. -/
theorem anyClash_eq_false_iff {l : List Edit} (hl : l.Pairwise fun A B => ¬ B.less A) :
    anyClash l = false ↔ l.IsChain Edit.Before := by
  induction l with
  | nil => simp [anyClash]
  | cons A l ih =>
    obtain ⟨hA, hrest⟩ := List.pairwise_cons.mp hl
    cases l with
    | nil => simp [anyClash]
    | cons B l =>
      rw [anyClash, Bool.or_eq_false_iff, ih hrest, before_iff (hA B List.mem_cons_self),
        List.isChain_cons_cons]

theorem pairwise_before_iff {l : List Edit} (hl : l.Pairwise fun A B => ¬ B.less A) :
    l.Pairwise Edit.Before ↔ l.Pairwise fun A B => ¬ A.Clash B := by
  constructor
  · exact fun h => (h.and hl).imp fun hAB => (before_iff_not_clash hAB.2).mp hAB.1
  · exact fun h => (h.and hl).imp fun hAB => (before_iff_not_clash hAB.2).mpr hAB.1

/-- Comparing neighbours is enough: when none clash, no two edits do. -/
theorem anyClash_run_iff (sorter : Sorter) (edits : List Edit) :
    anyClash (sorter.run edits) = false ↔ edits.Pairwise fun A B => ¬ A.Clash B := by
  have hl := sorter.sorted edits
  rw [anyClash_eq_false_iff hl, List.isChain_iff_pairwise, pairwise_before_iff hl]
  exact (sorter.perm edits).pairwise_iff fun h hc => h hc.symm

/-- The order that the edits are sorted into is the only one, when no two clash. -/
theorem run_eq_run (sorter sorter' : Sorter) {edits edits' : List Edit} (hperm : edits'.Perm edits)
    (h : edits.Pairwise fun A B => ¬ A.Clash B) : sorter'.run edits' = sorter.run edits := by
  have hmem : ∀ A ∈ edits, ∀ B ∈ edits, A ≠ B → ¬ A.Clash B := fun A hA B hB hne =>
    h.forall hA hB hne
  have hrun' := (sorter'.perm edits').trans hperm
  have hrun := sorter.perm edits
  refine List.Perm.eq_of_pairwise (fun A B hA hB hAB hBA => ?_) (sorter'.sorted edits')
    (sorter.sorted edits) (hrun'.trans hrun.symm)
  -- neither comes before the other, so they start at one place
  by_contra hne
  refine hmem A (hrun'.mem_iff.mp hA) B (hrun.mem_iff.mp hB) hne ?_
  unfold Edit.less at hAB hBA
  unfold Edit.Clash
  split at hAB <;> split at hBA <;> omega

/-! ### The loops -/

theorem substr_eq {text : Bytes} {pos n : ℤ} (hpos : 0 ≤ pos) (hle : pos ≤ text.length)
    (hn : 0 ≤ n) : substr text pos n = .ok ((text.drop pos.toNat).take n.toNat) :=
  if_pos ⟨hpos, hle, hn⟩

theorem runStart_spec (orig : Bytes) : ∀ i, i ≤ orig.length →
    ∃ start, runStart orig i = .ok start ∧ start ≤ i := by
  intro i
  induction i with
  | zero => exact fun _ => ⟨0, rfl, le_rfl⟩
  | succ i ih =>
    intro hi
    obtain ⟨start, hstart, hle⟩ := ih (by omega)
    rw [runStart, List.getElem?_eq_getElem (show i < orig.length by omega)]
    by_cases hblank : isBlank orig[i] = true
    · exact ⟨i + 1, if_pos hblank, le_rfl⟩
    · exact ⟨start, (if_neg hblank).trans hstart, by omega⟩

/-- The columns of an edit lie in its line. -/
structure Edit.Fits (orig : Bytes) (E : Edit) : Prop where
  start_pos : 1 ≤ E.startCol
  le : E.startCol ≤ E.endCol
  fits : E.endCol ≤ orig.length + 1

/-- A description reads nothing outside the line. -/
theorem exists_describeEdit {orig : Bytes} (h : E.Fits orig) :
    ∃ text, describeEdit E orig = .ok text := by
  obtain ⟨hpos, hle, hfits⟩ := h
  obtain ⟨start, hstart, hstartle⟩ := runStart_spec orig (E.startCol - 1).toNat (by omega)
  have hrun := @substr_eq orig start (((E.startCol - 1).toNat : ℕ) - start) (by omega) (by omega)
    (by omega)
  rw [describeEdit, substr_eq (by omega) (by omega) (by omega)]
  simp only [bind, Except.bind, pure, Except.pure, hstart, hrun]
  split_ifs <;> exact ⟨_, rfl⟩

/-- The loop over the edits of one line writes the line with their spans replaced. -/
theorem lineLoop_spec {orig : Bytes} {line : ℤ} {rest : List Edit}
    (hrest : ∀ E ∈ rest.head?, E.line ≠ line) (own : List Edit) : ∀ (new : Bytes) (pos : ℤ)
    (p : Progress), 0 ≤ pos → pos ≤ orig.length → (∀ E ∈ own, E.line = line) →
    (∀ E ∈ own, E.Fits orig ∧ pos ≤ E.startCol - 1) → own.Pairwise Edit.Before →
    ∃ p', lineLoop orig line (own ++ rest) new pos p =
        .ok (rest, new ++ splice orig pos.toNat (own.map Edit.span), p') ∧
      (p'.changed = true ↔ p.changed = true ∨ ∃ E ∈ own,
        (orig.drop (E.startCol - 1).toNat).take (E.endCol - E.startCol).toNat ≠ E.replacement) := by
  induction own with
  | nil =>
    intro new pos p hpos hle _ _ _
    have htail := substr_eq hpos hle (n := orig.length) (by omega)
    rw [Int.toNat_natCast, List.take_of_length_le (by simp)] at htail
    refine ⟨p, ?_, by simp⟩
    cases rest with
    | nil =>
      rw [List.append_nil, lineLoop, htail]
      rfl
    | cons E rest =>
      rw [List.nil_append, lineLoop, if_neg (hrest E rfl), htail]
      rfl
  | cons E own ih =>
    intro new pos p hpos hle hline hfits hbefore
    obtain ⟨hE, hown⟩ := List.pairwise_cons.mp hbefore
    obtain ⟨hEfits, hEpos⟩ := hfits E List.mem_cons_self
    obtain ⟨text, htext⟩ := exists_describeEdit hEfits
    obtain ⟨hstart, hcol, hend⟩ := hEfits
    have hnext : ∀ F ∈ own, F.Fits orig ∧ E.endCol - 1 ≤ F.startCol - 1 := by
      intro F hF
      refine ⟨(hfits F (List.mem_cons_of_mem E hF)).1, ?_⟩
      have hEF := hE F hF
      have hlineE := hline E List.mem_cons_self
      have hlineF := hline F (List.mem_cons_of_mem E hF)
      unfold Edit.Before at hEF
      omega
    have hkept := substr_eq hpos hle (n := E.startCol - 1 - pos) (by omega)
    have hold := @substr_eq orig (E.startCol - 1) (E.endCol - E.startCol) (by omega) (by omega)
      (by omega)
    have hlen : (E.startCol - 1 - pos).toNat = E.span.start - pos.toNat := by
      show _ = (E.startCol - 1).toNat - pos.toNat
      omega
    have hstop : E.span.stop = (E.endCol - 1).toNat := by
      show max _ _ = _
      omega
    obtain ⟨p', hloop, hchanged⟩ := ih
      (new ++ (orig.drop pos.toNat).take (E.startCol - 1 - pos).toNat ++ E.replacement)
      (E.endCol - 1)
      ⟨if (orig.drop (E.startCol - 1).toNat).take (E.endCol - E.startCol).toNat ≠ E.replacement
        then true else p.changed, if text ∈ p.said then p.said else p.said ++ [text]⟩
      (by omega) (by omega) (fun F hF => hline F (List.mem_cons_of_mem E hF)) hnext hown
    refine ⟨p', ?_, ?_⟩
    · rw [List.cons_append, lineLoop, if_pos (hline E List.mem_cons_self), hkept, hold, htext]
      refine hloop.trans ?_
      rw [List.map_cons, splice, hstop, hlen]
      simp [List.append_assoc, Edit.span]
    · rw [hchanged, List.exists_mem_cons_iff]
      by_cases hsame : (orig.drop (E.startCol - 1).toNat).take (E.endCol - E.startCol).toNat ≠
          E.replacement
      · rw [if_pos hsame]
        exact ⟨fun _ => .inr (.inl hsame), fun _ => .inl rfl⟩
      · rw [if_neg hsame]
        tauto

theorem Edit.InRange.toFits (h : E.InRange lines) : E.Fits (textAt lines E.line) :=
  ⟨h.start_pos, h.le, h.fits⟩

/-- The loop over the lines writes each of them with its spans replaced. By induction on the number
of lines: the edits of the first one stand in front. -/
theorem fileLoop_spec (n : ℕ) : ∀ (line : ℤ) (edits : List Edit) (p : Progress), 1 ≤ line →
    line + n - 1 ≤ lines.length → (∀ E ∈ edits, E.InRange lines ∧ line ≤ E.line ∧ E.line < line + n) →
    edits.Pairwise Edit.Before →
    ∃ p', fileLoop lines n line edits p =
        .ok ((List.range n).map fun i : ℕ =>
          splice (textAt lines (line + i)) 0 (spansOf edits (line + i)), p') ∧
      (p'.changed = true ↔ p.changed = true ∨ ∃ E ∈ edits, E.Changes lines) := by
  induction n with
  | zero =>
    intro line edits p _ _ hin _
    have hnil : edits = [] := by
      refine List.eq_nil_iff_forall_not_mem.mpr fun E hE => ?_
      obtain ⟨-, hle, hlt⟩ := hin E hE
      omega
    subst hnil
    exact ⟨p, rfl, by simp⟩
  | succ n ih =>
    intro line edits p hpos hle hin hbefore
    obtain ⟨own, hown⟩ : ∃ own, own = edits.takeWhile fun E => E.line = line := ⟨_, rfl⟩
    obtain ⟨rest, hrest⟩ : ∃ rest, rest = edits.dropWhile fun E => E.line = line := ⟨_, rfl⟩
    have hedits : edits = own ++ rest := by rw [hown, hrest, List.takeWhile_append_dropWhile]
    have hownline : ∀ E ∈ own, E.line = line := fun E hE => by
      rw [hown] at hE
      simpa using List.mem_takeWhile_imp hE
    have hhead : ∀ E ∈ rest.head?, E.line ≠ line := fun E hE => by
      have hno := List.head?_dropWhile_not (fun E : Edit => decide (E.line = line)) edits
      rw [← hrest, Option.mem_def.mp hE] at hno
      simpa using hno
    rw [hedits, List.pairwise_append] at hbefore
    obtain ⟨hownBefore, hrestBefore, -⟩ := hbefore
    have hrestline : ∀ E ∈ rest, line < E.line := by
      cases hcons : rest with
      | nil => simp
      | cons F rest' =>
        rw [hcons] at hhead hrestBefore
        have hF : line < F.line := lt_of_le_of_ne
          (hin F (by simp [hedits, hcons])).2.1 (hhead F rfl).symm
        intro E hE
        rcases List.mem_cons.mp hE with rfl | hE
        · exact hF
        · have hFE := (List.pairwise_cons.mp hrestBefore).1 E hE
          unfold Edit.Before at hFE
          omega
    have hspans : spansOf edits line = own.map Edit.span := by
      have hrestNil : (rest.filter fun E => E.line = line) = [] := by
        rw [List.filter_eq_nil_iff]
        intro E hE
        simpa using (hrestline E hE).ne'
      rw [spansOf, hedits, List.filter_append, hrestNil, List.append_nil,
        List.filter_eq_self.mpr fun E hE => by simpa using hownline E hE]
    have hspans' : ∀ k, line < k → spansOf edits k = spansOf rest k := by
      intro k hk
      have hownNil : (own.filter fun E => E.line = k) = [] := by
        rw [List.filter_eq_nil_iff]
        intro E hE
        rw [hownline E hE]
        simpa using hk.ne
      rw [spansOf, hedits, List.filter_append, hownNil, List.nil_append, spansOf]
    have hfits : ∀ E ∈ own, E.Fits (textAt lines line) ∧ (0 : ℤ) ≤ E.startCol - 1 := by
      intro E hE
      have hE' := (hin E (by simp [hedits, hE])).1
      have hfits := hE'.toFits
      rw [hownline E hE] at hfits
      exact ⟨hfits, by have := hE'.start_pos; omega⟩
    obtain ⟨p₁, hline, hchanged₁⟩ := lineLoop_spec hhead own [] 0 p le_rfl (Int.natCast_nonneg _)
      hownline hfits hownBefore
    obtain ⟨p₂, hfile, hchanged₂⟩ := ih (line + 1) rest p₁ (by omega) (by omega) (fun E hE => by
      obtain ⟨hE', -, hlt⟩ := hin E (by simp [hedits, hE])
      have := hrestline E hE
      exact ⟨hE', by omega, by omega⟩) hrestBefore
    refine ⟨p₂, ?_, ?_⟩
    · rw [fileLoop, lineAt_eq hpos (by omega), hedits]
      simp only [bind, Except.bind, hline, hfile, pure, Except.pure, List.nil_append, Int.toNat_zero]
      rw [List.range_succ_eq_map, List.map_cons, List.map_map, ← hedits, ← hspans]
      congr 3
      · simp
      · refine List.map_congr_left fun i _ => ?_
        have hi : line + ((i + 1 : ℕ) : ℤ) = line + 1 + i := by push_cast; ring
        simp only [Function.comp_apply, hi, hspans' (line + 1 + i) (by omega)]
    · rw [hchanged₂, hchanged₁, hedits]
      simp only [List.mem_append, or_and_right, exists_or, or_assoc]
      have hownChanges : (∃ E ∈ own, ((textAt lines line).drop (E.startCol - 1).toNat).take
          (E.endCol - E.startCol).toNat ≠ E.replacement) ↔ ∃ E ∈ own, E.Changes lines := by
        refine exists_congr fun E => and_congr_right fun hE => ?_
        rw [Edit.Changes, hownline E hE]
      rw [hownChanges]

/-! ### The whole file -/

/-- The spans of one line stand apart, from left to right. -/
theorem pairwise_spansOf (hin : ∀ E ∈ edits, E.InRange lines) (h : edits.Pairwise Edit.Before)
    (k : ℤ) : (spansOf edits k).Pairwise Span.Before := by
  rw [spansOf, List.pairwise_map, List.pairwise_filter]
  refine h.imp_of_mem fun hA hB hAB hAk hBk => ?_
  have hstartA := (hin _ hA).start_pos
  have hstartB := (hin _ hB).start_pos
  rw [decide_eq_true_eq] at hAk hBk
  unfold Edit.Before at hAB
  constructor
  · show max _ _ ≤ _
    simp only [Edit.span]
    omega
  · simp only [Edit.span]
    omega

/-- A line written from left to right is the line with its spans replaced, the edits in the order
they were given in. -/
theorem splice_spansOf (hin : ∀ E ∈ edits, E.InRange lines) (h : edits.Pairwise Edit.Before)
    {edits' : List Edit} (hperm : edits.Perm edits') (k : ℤ) :
    splice (textAt lines k) 0 (spansOf edits k) = replace (textAt lines k) (spansOf edits' k) := by
  have hpair := pairwise_spansOf hin h k
  rw [Spans.splice_eq_replace _ ?_ hpair]
  · exact Spans.replace_perm _ ((hperm.filter _).map _) (hpair.imp fun hst => hst.2.ne)
  · intro s hs
    obtain ⟨E, hE, rfl⟩ := List.mem_map.mp hs
    rw [List.mem_filter, decide_eq_true_eq] at hE
    obtain ⟨hE, rfl⟩ := hE
    obtain ⟨-, -, -, hstart, hle, hfits⟩ := hin E hE
    show max _ _ ≤ _
    omega

/-- A line without edits stays as it is. -/
theorem spansOf_eq_nil {k : ℤ} (h : ∀ E ∈ edits, E.line ≠ k) : spansOf edits k = [] := by
  rw [spansOf, List.map_eq_nil_iff, List.filter_eq_nil_iff]
  exact fun E hE => by simpa using h E hE

/-- The new lines between the old ones are the lines with their spans replaced. -/
theorem patched_eq (hin : ∀ E ∈ edits, E.InRange lines) (h : edits.Pairwise Edit.Before)
    {edits' : List Edit} (hperm : edits.Perm edits') {first last : ℤ} (hfirst : 1 ≤ first)
    (hle : first ≤ last) (hlast : last ≤ lines.length)
    (hbetween : ∀ E ∈ edits, first ≤ E.line ∧ E.line ≤ last) :
    lines.take (first - 1).toNat ++
        ((List.range (last - first + 1).toNat).map fun i : ℕ =>
          splice (textAt lines (first + i)) 0 (spansOf edits (first + i))) ++
      lines.drop last.toNat = patch lines edits' := by
  obtain ⟨a, rfl⟩ : ∃ a : ℕ, first = a + 1 := ⟨(first - 1).toNat, by omega⟩
  obtain ⟨n, rfl⟩ : ∃ n : ℕ, last = a + 1 + n := ⟨(last - (a + 1)).toNat, by omega⟩
  have ha : ((a : ℤ) + 1 - 1).toNat = a := by omega
  have hn : ((a : ℤ) + 1 + n - (a + 1) + 1).toNat = n + 1 := by omega
  have hd : ((a : ℤ) + 1 + n).toNat = a + 1 + n := by omega
  rw [ha, hn, hd, patch]
  have hout : ∀ i : ℕ, i < a ∨ a + 1 + n ≤ i → spansOf edits' ((i : ℤ) + 1) = [] := by
    intro i hi
    refine spansOf_eq_nil fun E hE heq => ?_
    obtain ⟨hlo, hhi⟩ := hbetween E (hperm.mem_iff.mpr hE)
    omega
  refine List.ext_getElem (by simp; omega) fun i hi hi' => ?_
  rw [List.length_mapIdx] at hi'
  rw [List.getElem_mapIdx]
  rcases lt_or_ge i a with hlt | hge
  · rw [hout i (.inl hlt), Spans.replace_nil, List.getElem_append_left (by simp; omega),
      List.getElem_append_left (by simp; omega), List.getElem_take]
  rcases lt_or_ge i (a + 1 + n) with hlt | hge'
  · obtain ⟨j, rfl⟩ : ∃ j, i = a + j := ⟨i - a, by omega⟩
    have hline : (a : ℤ) + 1 + j = ((a + j : ℕ) : ℤ) + 1 := by push_cast; ring
    have htext : textAt lines (((a + j : ℕ) : ℤ) + 1) = lines[a + j] := by
      rw [textAt, Int.add_sub_cancel, Int.toNat_natCast, List.getD_eq_getElem?_getD,
        List.getElem?_eq_getElem hi']
      rfl
    rw [List.getElem_append_left (by simp; omega), List.getElem_append_right (by simp),
      List.getElem_map, List.getElem_range, List.length_take, Nat.min_eq_left (by omega),
      Nat.add_sub_cancel_left, hline, splice_spansOf hin h hperm, htext]
  · rw [hout i (.inr hge'), Spans.replace_nil, List.getElem_append_right (by simp; omega),
      List.getElem_drop]
    congr 1
    simp
    omega

/-- A list of edits that `build` makes a fix of. -/
structure Acceptable (lines : List Bytes) (edits : List Edit) : Prop where
  nonempty : edits ≠ []
  inRange : ∀ E ∈ edits, E.InRange lines
  apart : edits.Pairwise fun A B => ¬ A.Clash B
  changes : ∃ E ∈ edits, E.Changes lines

variable {fixIts : List FixIt}

/-- Of edits that are in range and apart, `build` makes the file with their spans replaced, and it
shows that file when an edit changes something. -/
theorem build_of_apart (sorter : Sorter) (fixDescription : Bytes)
    (hnonempty : fixIts.map (FixIt.edit errorLine) ≠ [])
    (hinRange : ∀ E ∈ fixIts.map (FixIt.edit errorLine), E.InRange lines)
    (hapart : (fixIts.map (FixIt.edit errorLine)).Pairwise fun A B => ¬ A.Clash B) :
    ∃ fix : CompilerFix, fix.patchedFile = joinLines (patch lines (fixIts.map (FixIt.edit errorLine))) ∧
      ((∃ E ∈ fixIts.map (FixIt.edit errorLine), E.Changes lines) →
        build sorter fixIts fixDescription errorLine lines = .ok fix) ∧
      ((¬ ∃ E ∈ fixIts.map (FixIt.edit errorLine), E.Changes lines) →
        build sorter fixIts fixDescription errorLine lines = .error .refused) := by
  have hcollect := collect_eq_ok hinRange
  generalize fixIts.map (FixIt.edit errorLine) = edits at *
  have hperm := sorter.perm edits
  have hclash := (anyClash_run_iff sorter edits).mpr hapart
  have hbefore : (sorter.run edits).Pairwise Edit.Before := by
    rw [anyClash_eq_false_iff (sorter.sorted edits), List.isChain_iff_pairwise] at hclash
    exact hclash
  have hin : ∀ E ∈ sorter.run edits, E.InRange lines := fun E hE =>
    hinRange E (hperm.mem_iff.mp hE)
  have hchanges : (∃ E ∈ edits, E.Changes lines) ↔ ∃ E ∈ sorter.run edits, E.Changes lines := by
    simp only [hperm.mem_iff]
  cases hrun : sorter.run edits with
  | nil =>
    rw [hrun, List.nil_perm] at hperm
    exact (hnonempty hperm).elim
  | cons first rest =>
    rw [hrun] at hperm hclash hbefore hin hchanges
    obtain ⟨last, hlast⟩ : ∃ last, last = (first :: rest).getLast (List.cons_ne_nil first rest) :=
      ⟨_, rfl⟩
    have hlastmem : last ∈ first :: rest := hlast ▸ List.getLast_mem _
    have hbetween : ∀ E ∈ first :: rest, first.line ≤ E.line ∧ E.line ≤ last.line := by
      intro E hE
      have hmono : (first :: rest).Pairwise fun A B => A.line ≤ B.line :=
        hbefore.imp fun hAB => by unfold Edit.Before at hAB; omega
      refine ⟨?_, hlast ▸ ?_⟩
      · rcases List.mem_cons.mp hE with rfl | hE
        · exact le_rfl
        · exact (List.pairwise_cons.mp hmono).1 E hE
      · exact hmono.rel_getLast_of_rel_getLast_getLast hE le_rfl
    have hfirst := hin first List.mem_cons_self
    have hfirstlast := (hbetween last hlastmem).1
    have hlastle := (hin last hlastmem).line_le
    have hn : (((last.line - first.line + 1).toNat : ℕ) : ℤ) = last.line - first.line + 1 := by
      omega
    obtain ⟨p, hfile, hchanged⟩ := fileLoop_spec (last.line - first.line + 1).toNat first.line
      (first :: rest) {} hfirst.line_pos (by omega)
      (fun E hE => ⟨hin E hE, (hbetween E hE).1, by have := (hbetween E hE).2; omega⟩) hbefore
    have hp : p.changed = true ↔ ∃ E ∈ edits, E.Changes lines := by
      rw [hchanged, hchanges]
      exact or_iff_right Bool.false_ne_true
    have hpatched := patched_eq hin hbefore hperm hfirst.line_pos hfirstlast hlastle hbetween
    generalize (List.range (last.line - first.line + 1).toNat).map _ = news at hfile hpatched
    refine ⟨⟨if fixDescription ≠ [] then fixDescription else joinSaid p.said, first :: rest,
      first.line, last.line, news, joinLines (patch lines edits)⟩, rfl, fun hch => ?_, fun hno => ?_⟩
    · simp only [build, hcollect, bind, Except.bind, hrun, hclash, ← hlast, hfile, hp.mpr hch, hpatched,
        Bool.false_eq_true, not_true, if_false, pure, Except.pure]
    · simp only [build, hcollect, bind, Except.bind, hrun, hclash, ← hlast, hfile, mt hp.mp hno,
        Bool.false_eq_true, not_false_eq_true, if_true, if_false]

theorem build_eq_ok (sorter : Sorter) (fixDescription : Bytes)
    (h : Acceptable lines (fixIts.map (FixIt.edit errorLine))) :
    ∃ fix : CompilerFix, build sorter fixIts fixDescription errorLine lines = .ok fix ∧
      fix.patchedFile = joinLines (patch lines (fixIts.map (FixIt.edit errorLine))) := by
  obtain ⟨fix, hpatched, hok, -⟩ := build_of_apart sorter fixDescription h.nonempty h.inRange h.apart
  exact ⟨fix, hok h.changes, hpatched⟩

theorem build_eq_refused (sorter : Sorter) (fixDescription : Bytes)
    (h : ¬ Acceptable lines (fixIts.map (FixIt.edit errorLine))) :
    build sorter fixIts fixDescription errorLine lines = .error .refused := by
  by_cases hin : ∀ E ∈ fixIts.map (FixIt.edit errorLine), E.InRange lines
  swap
  · push Not at hin
    rw [build, collect_eq_refused hin]
    rfl
  by_cases hempty : fixIts.map (FixIt.edit errorLine) = []
  · have hrun : sorter.run (fixIts.map (FixIt.edit errorLine)) = [] := by
      have hperm := sorter.perm (fixIts.map (FixIt.edit errorLine))
      rw [hempty] at hperm ⊢
      exact List.perm_nil.mp hperm
    simp only [build, collect_eq_ok hin, bind, Except.bind, hrun]
  by_cases hapart : (fixIts.map (FixIt.edit errorLine)).Pairwise fun A B => ¬ A.Clash B
  · obtain ⟨fix, -, -, hrefused⟩ := build_of_apart sorter fixDescription hempty hin hapart
    exact hrefused fun hch => h ⟨hempty, hin, hapart, hch⟩
  · have hclash := mt (anyClash_run_iff sorter (fixIts.map (FixIt.edit errorLine))).mp hapart
    rw [Bool.not_eq_false] at hclash
    simp only [build, collect_eq_ok hin, bind, Except.bind]
    cases hrun : sorter.run (fixIts.map (FixIt.edit errorLine)) with
    | nil => rfl
    | cons first rest =>
      rw [hrun] at hclash
      simp only [hclash, if_true]

/-- What `build` does of a list of edits. -/
structure BuildsExactly (sorter : Sorter) (fixIts : List FixIt) (fixDescription : Bytes)
    (errorLine : ℤ) (lines : List Bytes) : Prop where
  inBounds : build sorter fixIts fixDescription errorLine lines ≠ .error .outOfRange
  refuses : build sorter fixIts fixDescription errorLine lines = .error .refused ↔
    ¬ Acceptable lines (fixIts.map (FixIt.edit errorLine))
  patches : ∀ fix, build sorter fixIts fixDescription errorLine lines = .ok fix →
    fix.patchedFile = joinLines (patch lines (fixIts.map (FixIt.edit errorLine)))
  keepsLines : (∀ text ∈ lines, 10 ∉ text) →
    ∀ fix, build sorter fixIts fixDescription errorLine lines = .ok fix →
      fix.patchedFile.count 10 = lines.length
  anyOrder : ∀ sorter' fixIts', List.Perm fixIts' fixIts →
    build sorter' fixIts' fixDescription errorLine lines =
      build sorter fixIts fixDescription errorLine lines

theorem count_joinLines {ls : List Bytes} (h : ∀ text ∈ ls, 10 ∉ text) :
    (joinLines ls).count 10 = ls.length := by
  induction ls with
  | nil => rfl
  | cons text ls ih =>
    rw [List.forall_mem_cons] at h
    have hrest := ih h.2
    unfold joinLines at hrest ⊢
    rw [List.flatMap_cons, List.count_append, hrest, List.count_append,
      List.count_eq_zero_of_not_mem h.1, List.length_cons]
    simp [Nat.add_comm]

/-- No new line breaks come into the lines. -/
theorem noNewline_patch (hin : ∀ E ∈ edits, E.InRange lines) (h : ∀ text ∈ lines, 10 ∉ text) :
    ∀ text ∈ patch lines edits, 10 ∉ text := by
  intro text htext hmem
  obtain ⟨i, hi, rfl⟩ := List.mem_mapIdx.mp htext
  rcases Spans.mem_replace hmem with hold | ⟨s, hs, hnew⟩
  · exact h _ (List.getElem_mem hi) hold
  · obtain ⟨E, hE, rfl⟩ := List.mem_map.mp hs
    exact (hin E (List.mem_of_mem_filter hE)).noNewline hnew

theorem Acceptable.perm {edits' : List Edit} (hperm : edits'.Perm edits)
    (h : Acceptable lines edits) : Acceptable lines edits' := by
  refine ⟨fun hnil => h.nonempty ?_, fun E hE => h.inRange E (hperm.mem_iff.mp hE),
    (hperm.pairwise_iff fun hc hc' => hc hc'.symm).mpr h.apart, ?_⟩
  · rwa [hnil, List.nil_perm] at hperm
  · obtain ⟨E, hE, hch⟩ := h.changes
    exact ⟨E, hperm.mem_iff.mpr hE, hch⟩

/-- Neither the order of the fix-its nor the way ties are sorted shows. -/
theorem build_perm (sorter sorter' : Sorter) {fixIts' : List FixIt} (hperm : fixIts'.Perm fixIts)
    (fixDescription : Bytes) :
    build sorter' fixIts' fixDescription errorLine lines =
      build sorter fixIts fixDescription errorLine lines := by
  have hedits := hperm.map (FixIt.edit errorLine)
  by_cases h : Acceptable lines (fixIts.map (FixIt.edit errorLine))
  · have h' := h.perm hedits
    simp only [build, collect_eq_ok h.inRange, collect_eq_ok h'.inRange, bind, Except.bind,
      run_eq_run sorter sorter' hedits h.apart]
  · rw [build_eq_refused sorter fixDescription h,
      build_eq_refused sorter' fixDescription fun h' => h (h'.perm hedits.symm)]

theorem buildsExactly (sorter : Sorter) (fixIts : List FixIt) (fixDescription : Bytes)
    (errorLine : ℤ) (lines : List Bytes) :
    BuildsExactly sorter fixIts fixDescription errorLine lines := by
  have hcases : (∃ fix : CompilerFix, Acceptable lines (fixIts.map (FixIt.edit errorLine)) ∧
      build sorter fixIts fixDescription errorLine lines = .ok fix ∧
      fix.patchedFile = joinLines (patch lines (fixIts.map (FixIt.edit errorLine)))) ∨
      (¬ Acceptable lines (fixIts.map (FixIt.edit errorLine)) ∧
        build sorter fixIts fixDescription errorLine lines = .error .refused) := by
    by_cases h : Acceptable lines (fixIts.map (FixIt.edit errorLine))
    · obtain ⟨fix, hok, hpatched⟩ := build_eq_ok sorter fixDescription h
      exact .inl ⟨fix, h, hok, hpatched⟩
    · exact .inr ⟨h, build_eq_refused sorter fixDescription h⟩
  refine ⟨?_, ?_, fun fix hfix => ?_, fun hlines fix hfix => ?_, fun sorter' fixIts' hperm =>
    build_perm sorter sorter' hperm fixDescription⟩
  · rcases hcases with ⟨fix, -, hok, -⟩ | ⟨-, hrefused⟩
    · rw [hok]
      exact fun h => nomatch h
    · rw [hrefused]
      exact fun h => nomatch h
  · rcases hcases with ⟨fix, h, hok, -⟩ | ⟨h, hrefused⟩
    · rw [hok]
      exact ⟨fun h => (nomatch h), fun hno => (hno h).elim⟩
    · exact ⟨fun _ => h, fun _ => hrefused⟩
  · rcases hcases with ⟨fix', -, hok, hpatched⟩ | ⟨-, hrefused⟩
    · obtain rfl : fix' = fix := Except.ok.inj (hok.symm.trans hfix)
      exact hpatched
    · exact nomatch hrefused.symm.trans hfix
  · rcases hcases with ⟨fix', h, hok, hpatched⟩ | ⟨-, hrefused⟩
    · obtain rfl : fix' = fix := Except.ok.inj (hok.symm.trans hfix)
      rw [hpatched, count_joinLines (noNewline_patch h.inRange hlines), patch, List.length_mapIdx]
    · exact nomatch hrefused.symm.trans hfix

/-! ### `check` -/

variable {canonical : Bytes → Option Bytes}

theorem samePath_iff {a b : Bytes} : samePath canonical a b = true ↔
    a = b ∨ ((canonical a).isSome = true ∧ canonical a = canonical b) := by
  simp [samePath]

/-- Errors with the same key are the classes of an equivalence. -/
theorem equivalence_sameError (canonical : Bytes → Option Bytes) :
    Equivalence fun x y => sameError canonical x y = true := by
  have hiff : ∀ x y, sameError canonical x y = true ↔
      x.line = y.line ∧ x.code = y.code ∧ samePath canonical x.path y.path = true := by
    simp [sameError]
  refine ⟨fun x => ?_, fun {x y} h => ?_, fun {x y z} h h' => ?_⟩
  · exact (hiff x x).mpr ⟨rfl, rfl, samePath_iff.mpr (.inl rfl)⟩
  · obtain ⟨hline, hcode, hpath⟩ := (hiff x y).mp h
    refine (hiff y x).mpr ⟨hline.symm, hcode.symm, samePath_iff.mpr ?_⟩
    rcases samePath_iff.mp hpath with heq | ⟨hsome, heq⟩
    · exact .inl heq.symm
    · exact .inr ⟨heq ▸ hsome, heq.symm⟩
  · obtain ⟨hline, hcode, hpath⟩ := (hiff x y).mp h
    obtain ⟨hline', hcode', hpath'⟩ := (hiff y z).mp h'
    refine (hiff x z).mpr ⟨hline.trans hline', hcode.trans hcode', samePath_iff.mpr ?_⟩
    rcases samePath_iff.mp hpath with heq | ⟨hsome, heq⟩
    · rw [heq]
      exact samePath_iff.mp hpath'
    · rcases samePath_iff.mp hpath' with heq' | ⟨-, heq'⟩
      · rw [← heq']
        exact .inr ⟨hsome, heq⟩
      · exact .inr ⟨hsome, heq.trans heq'⟩

/-- Taking the errors of one key out of the list leaves none of it and all of the others. -/
theorem countP_allowed {same : ErrorKey → ErrorKey → Bool}
    (hsame : Equivalence fun x y => same x y = true) (before : List ErrorKey)
    (original Z : ErrorKey) :
    (before.filter fun K => !same K original).countP (same · Z) =
      if same Z original then 0 else before.countP (same · Z) := by
  rw [List.countP_filter]
  by_cases hZ : same Z original = true
  · rw [if_pos hZ, List.countP_eq_zero]
    intro K _ hK
    rw [Bool.and_eq_true, Bool.not_eq_true'] at hK
    rw [hsame.trans hK.1 hZ] at hK
    exact Bool.noConfusion hK.2
  · rw [if_neg hZ]
    refine List.countP_congr fun K _ => ?_
    rw [Bool.and_eq_true, Bool.not_eq_true', and_iff_left_iff_imp]
    intro hK
    by_contra hno
    exact hZ (hsame.trans (hsame.symm hK) (by simpa using hno))

/-- After the fix the error is gone, and no key has more errors than before. -/
structure FixesOnly (same : ErrorKey → ErrorKey → Bool) (original : ErrorKey)
    (before after : List ErrorKey) : Prop where
  was : ∃ K ∈ before, same K original = true
  gone : ∀ K ∈ after, ¬ same K original = true
  noMore : ∀ Z, after.countP (same · Z) ≤ before.countP (same · Z)

theorem takeAll_allowed_iff {same : ErrorKey → ErrorKey → Bool}
    (hsame : Equivalence fun x y => same x y = true) (before after : List ErrorKey)
    (original : ErrorKey) :
    TakeAway.takeAll same (before.filter fun K => !same K original) after = true ↔
      (∀ K ∈ after, ¬ same K original = true) ∧
        ∀ Z, after.countP (same · Z) ≤ before.countP (same · Z) := by
  rw [TakeAway.takeAll_iff hsame]
  simp only [countP_allowed hsame]
  constructor
  · intro h
    have hgone : ∀ K ∈ after, ¬ same K original = true := by
      have hnone := h original
      rw [if_pos (hsame.refl original), Nat.le_zero, List.countP_eq_zero] at hnone
      exact hnone
    refine ⟨hgone, fun Z => ?_⟩
    have hZ := h Z
    split at hZ <;> omega
  · rintro ⟨hgone, hmore⟩ Z
    by_cases hZ : same Z original = true
    · rw [if_pos hZ, Nat.le_zero, List.countP_eq_zero]
      exact fun K hK hKZ => hgone K hK (hsame.trans hKZ hZ)
    · rw [if_neg hZ]
      exact hmore Z

theorem check_iff (P : Program) (fix : CompilerFix) (file code : Bytes) (errorLine : ℤ) :
    P.check fix file code errorLine = true ↔
      P.checking = false ∧ fix.edits ≠ [] ∧ code ≠ [] ∧ ∃ entry, P.entryLines = some entry ∧
        FixesOnly (sameError P.canonical) ⟨file, errorLine, code⟩ P.baselineErrors
          (P.errors (P.buffers fix file entry)) := by
  have hsame := equivalence_sameError P.canonical
  rw [Program.check]
  by_cases hguard : P.checking = true ∨ fix.edits = [] ∨ code = []
  · rw [if_pos hguard]
    refine ⟨fun h => (nomatch h), ?_⟩
    rintro ⟨hchecking, hedits, hcode, -⟩
    rcases hguard with h | h | h
    · exact absurd h (by simp [hchecking])
    · exact absurd h hedits
    · exact absurd h hcode
  rw [if_neg hguard]
  push Not at hguard
  obtain ⟨hchecking, hedits, hcode⟩ := hguard
  have hchecking : P.checking = false := by simpa using hchecking
  cases hentry : P.entryLines with
  | none => simp
  | some entry =>
    simp only [hchecking, Option.some.injEq, exists_eq_left', hedits, hcode, ne_eq, not_false_eq_true,
      true_and, Bool.not_eq_true]
    by_cases hwas : P.baselineErrors.any (sameError P.canonical · ⟨file, errorLine, code⟩) = true
    · rw [if_neg (by simpa using hwas), takeAll_allowed_iff hsame]
      exact ⟨fun h => ⟨List.any_eq_true.mp hwas, h.1, h.2⟩, fun h => ⟨h.gone, h.noMore⟩⟩
    · rw [if_pos (by simpa using hwas)]
      exact ⟨fun h => (nomatch h), fun h => (hwas (List.any_eq_true.mpr h.was)).elim⟩

instance : Std.Total fun A B : Edit => ¬ B.less A where
  total A B := by
    unfold Edit.less
    split <;> split <;> omega

instance : IsTrans Edit fun A B => ¬ B.less A where
  trans A B C h h' := by
    unfold Edit.less at *
    split at h <;> split at h' <;> split <;> omega

/-- Sorting by insertion, with the comparison of `build`. -/
def insertionSorter : Sorter where
  run := List.insertionSort fun A B => ¬ B.less A
  perm := List.perm_insertionSort _
  sorted := List.pairwise_insertionSort _

end TurfLang.CompilerFixes
