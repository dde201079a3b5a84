import TurfLang.Frontend.Lexer
import TurfLang.Lib.Raising

/-!
# The integer literals that `gettok` returns

What a literal says is read off its spelling: a prefix may name the radix, and separators do not
count. `NumLitClean` and `NumLitRadix` say the same number.
-/

namespace TurfLang

namespace Lexer

open Raising Strings

/-- The value of a digit of any radix. -/
def digitValue (c : UInt8) : ℕ :=
  if c ≤ 57 then c.toNat - 48 else if c ≤ 70 then c.toNat - 55 else c.toNat - 87

/-- The number that digits stand for. -/
def valueOf (radix : ℕ) (digits : Bytes) : ℕ :=
  digits.foldl (fun n c => n * radix + digitValue c) 0

/-- The digits of a run of digits and separators. -/
def withoutSeparators (run : Bytes) : Bytes := run.filter (· ≠ 95)

/-- The number that a literal stands for, by its spelling. -/
def literalValue : Bytes → ℕ
  | 48 :: c :: run =>
    match radixOf c with
    | some radix => valueOf radix (withoutSeparators run)
    | none => valueOf 10 (withoutSeparators (48 :: c :: run))
  | spelling => valueOf 10 (withoutSeparators spelling)

/-- The digits of the radixes that the lexer reads. -/
def isDigitOf (radix : ℕ) (c : UInt8) : Bool := if radix = 10 then isDigit c else isRadixDigit radix c

/-! ### Runs of digits -/

section Run

variable {p : UInt8 → Bool}

/-- What a run of digits adds to the spelling and to the digits. -/
structure RunFrom (p : UInt8 → Bool) (s s' : NumberScan) : Prop where
  run : ∃ run : Bytes, (∀ c ∈ run, p c = true ∨ c = 95) ∧ s'.spelling = s.spelling ++ run ∧
    s'.clean = s.clean ++ withoutSeparators run
  radix : s'.lexer.numLitRadix = s.lexer.numLitRadix

theorem RunFrom.refl (s : NumberScan) : RunFrom p s s :=
  ⟨⟨[], by simp, by simp, by simp [withoutSeparators]⟩, rfl⟩

theorem RunFrom.takeDigit {s s' : NumberScan} (h : RunFrom p s s') {c : UInt8}
    (hc : s'.lexer.lastChar = some c) (hp : p c = true ∨ c = 95) : RunFrom p s s'.takeDigit := by
  obtain ⟨⟨run, hrun, hsp, hcl⟩, hr⟩ := h
  have hall : ∀ d ∈ run ++ [c], p d = true ∨ d = 95 := by
    intro d hd
    rcases List.mem_append.1 hd with hd | hd
    · exact hrun d hd
    · rwa [List.mem_singleton.1 hd]
  by_cases h95 : c = 95
  · subst h95
    have htake : s'.takeDigit = s'.takeMark := by simp [NumberScan.takeDigit, hc]
    rw [htake]
    refine ⟨⟨run ++ [95], hall, ?_, ?_⟩, hr⟩
    · simp [NumberScan.takeMark, hsp, hc]
    · simp [NumberScan.takeMark, hcl, withoutSeparators]
  · have htake : s'.takeDigit = s'.takeClean := by
      simp only [NumberScan.takeDigit, hc, Option.some.injEq, h95, if_false]
    rw [htake]
    refine ⟨⟨run ++ [c], hall, ?_, ?_⟩, hr⟩
    · simp [NumberScan.takeClean, NumberScan.takeMark, hsp, hc]
    · simp [NumberScan.takeClean, NumberScan.takeMark, hcl, hc, withoutSeparators, h95]

theorem runFrom_takeDigits (s : NumberScan) : RunFrom p s (s.takeDigits p) := by
  refine Loop.whileFuel_induct (P := fun s' => RunFrom p s s') ?_ _ (.refl s)
  intro s' hp h
  obtain ⟨c, hc, hpc⟩ := (Option.any_eq_true _ _).1 hp
  exact h.takeDigit hc (by simpa using hpc)

end Run

theorem meets_raise {e : LexError} {s : NumberScan} {Q : Unit → NumberScan → Prop} :
    Meets (raise e) s Q fun _ => True := by
  simp [raise, meets_bind]

/-- A run of digits that is accepted. -/
theorem meets_scanDigitRun {p : UInt8 → Bool} (s : NumberScan) :
    Meets (scanDigitRun p) s (fun _ s' => RunFrom p s s') fun _ => True := by
  have hrun := runFrom_takeDigits (p := p) s
  simp only [scanDigitRun, meets_bind, meets_get, meets_modify, meets_ite, meets_pure]
  refine ⟨fun _ => meets_raise, fun _ => ⟨fun _ => meets_raise, fun _ => hrun⟩⟩

theorem meets_rejectStrayPoint (radix alreadyFloat : Bool) (s : NumberScan) :
    Meets (rejectStrayPoint radix alreadyFloat) s (fun _ s' => s' = s) fun _ => True := by
  simp only [rejectStrayPoint, meets_bind, meets_get, meets_ite, meets_pure]
  refine ⟨fun _ => ⟨fun _ => ⟨fun _ => meets_raise, fun _ => trivial⟩, fun _ => meets_raise⟩, fun _ => trivial⟩

/-! ### Integer literals -/

/-- What `NumLitClean` and `NumLitRadix` say is what the spelling says. -/
structure SaysLiteral (L : LexerState) : Prop where
  digits : ∀ c ∈ L.numLitClean, isDigitOf L.numLitRadix c = true
  value : valueOf L.numLitRadix L.numLitClean = literalValue L.numLitSpelling

theorem radixOf_ne_ten {c : UInt8} {radix : ℕ} (h : radixOf c = some radix) : radix ≠ 10 := by
  unfold radixOf at h
  split at h
  · simp at h; omega
  split at h
  · simp at h; omega
  split at h
  · simp at h; omega
  · cases h

theorem meets_scanRadixNumber {L : LexerState} {c : UInt8} {radix : ℕ}
    (h0 : L.lastChar = some 48) (hc : L.peek = some c) (hradix : radixOf c = some radix) :
    Meets (scanRadixNumber radix) { lexer := L } (fun _ s' => SaysLiteral s'.lexer)
      fun _ => True := by
  simp only [scanRadixNumber, finishNumber, setRadix, meets_bind, meets_modify]
  refine (meets_scanDigitRun _).mono ?_ fun _ _ => trivial
  rintro digits s ⟨⟨run, hrun, hsp, hcl⟩, hr⟩
  have hsp' : s.spelling = 48 :: c :: run := by
    simpa [NumberScan.takeMark, LexerState.advance, h0, show L.source.head? = some c from hc]
      using hsp
  have hcl' : s.clean = withoutSeparators run := by
    simpa [NumberScan.takeMark] using hcl
  have hr' : s.lexer.numLitRadix = radix := hr
  simp only [meets_get, meets_ite, meets_bind]
  refine ⟨fun _ => meets_raise, fun _ => ⟨fun _ => meets_raise, fun _ => ?_⟩⟩
  refine (meets_rejectStrayPoint _ _ _).mono ?_ fun _ _ => trivial
  intro _ s' hs'
  simp only [meets_modify, meets_pure, hs']
  refine ⟨?_, ?_⟩
  · intro d hd
    simp only [hcl', withoutSeparators, List.mem_filter, decide_eq_true_eq] at hd
    have hp := (hrun d hd.1).resolve_right hd.2
    simpa [hr', isDigitOf, radixOf_ne_ten hradix] using hp
  · simp only [hsp', hcl', hr', literalValue, hradix]

/-- No decimal literal is spelled like one with a prefix. -/
theorem literalValue_of_digits {run : Bytes} (h : ∀ c ∈ run, isDigit c = true ∨ c = 95) :
    literalValue run = valueOf 10 (withoutSeparators run) := by
  unfold literalValue
  split
  case h_1 c rest =>
    have hnone : radixOf c = none := by
      rcases h c (by simp) with hd | rfl
      · obtain ⟨hlo, hhi⟩ := isDigit_iff.1 hd
        have hne : ∀ d : UInt8, 57 < d.toNat → c ≠ d := by
          rintro d hd rfl
          omega
        simp [radixOf, hne 120 (by decide), hne 88 (by decide), hne 98 (by decide),
          hne 66 (by decide), hne 111 (by decide), hne 79 (by decide)]
      · rfl
    rw [hnone]
  case h_2 => rfl

theorem meets_scanDecimalNumber {L : LexerState} :
    Meets scanDecimalNumber { lexer := L }
      (fun t s' => t = .tokIntLiteral → SaysLiteral s'.lexer) fun _ => True := by
  simp only [scanDecimalNumber, finishNumber, setRadix, meets_bind, meets_modify]
  refine (meets_scanDigitRun _).mono ?_ fun _ _ => trivial
  rintro digits s ⟨⟨run, hrun, hsp, hcl⟩, hr⟩
  have hsp' : s.spelling = run := by simpa using hsp
  have hcl' : s.clean = withoutSeparators run := by simpa using hcl
  have hr' : s.lexer.numLitRadix = 10 := hr
  have hfraction : Meets scanFraction s (fun b s' => b = false → s' = s) fun _ => True := by
    simp only [scanFraction, meets_bind, meets_get, meets_ite, meets_modify, meets_pure]
    refine ⟨fun _ => (meets_scanDigitRun _).mono (fun _ _ _ => by simp) fun _ _ => trivial, ?_⟩
    exact fun _ _ => trivial
  refine hfraction.mono ?_ fun _ _ => trivial
  intro fraction s₁ hs₁
  have hexponent : Meets scanExponent s₁ (fun b s' => b = false → s' = s₁) fun _ => True := by
    simp only [scanExponent, meets_bind, meets_get, meets_ite, meets_modify, meets_pure]
    refine ⟨fun _ => ⟨fun _ => ?_, fun _ => ?_⟩, fun _ _ => trivial⟩ <;>
    · refine (meets_scanDigitRun _).mono (fun _ _ _ => ?_) fun _ _ => trivial
      exact ⟨fun _ => meets_raise, fun _ => by simp⟩
  refine hexponent.mono ?_ fun _ _ => trivial
  intro exponent s₂ hs₂
  refine (meets_rejectStrayPoint _ _ _).mono ?_ fun _ _ => trivial
  intro _ s₃ hs₃
  simp only [meets_pure, hs₃]
  intro hint
  have hno : (fraction || exponent) = false := by
    by_contra hyes
    rw [Bool.not_eq_false] at hyes
    simp [hyes] at hint
  obtain ⟨hf, he⟩ := Bool.or_eq_false_iff.1 hno
  rw [hs₂ he, hs₁ hf]
  refine ⟨?_, ?_⟩
  · intro d hd
    simp only [hcl', withoutSeparators, List.mem_filter, decide_eq_true_eq] at hd
    simpa [hr', isDigitOf] using (hrun d hd.1).resolve_right hd.2
  · simp only [hsp', hcl', hr', literalValue_of_digits hrun]

theorem meets_scanNumber (L : LexerState) :
    Meets scanNumber { lexer := L } (fun t s' => t = .tokIntLiteral → SaysLiteral s'.lexer)
      fun _ => True := by
  simp only [scanNumber, meets_bind, meets_get]
  split
  case h_1 radix hradix =>
    split at hradix
    case isTrue h0 =>
      obtain ⟨c, hc, hr⟩ := Option.bind_eq_some_iff.1 hradix
      exact (meets_scanRadixNumber h0 hc hr).mono (fun _ _ h _ => h) fun _ h => h
    case isFalse => cases hradix
  case h_2 => exact meets_scanDecimalNumber

/-! ### The other branches -/

theorem IsOperator.fst_ne {c : UInt8} {f : LexerState → Token × LexerState} (h : IsOperator c f)
    (L : LexerState) : (f L).1 ≠ .tokIntLiteral := by
  induction h generalizing L with
  | @scan c t longer hc ht hlonger ih =>
    unfold scanOperator
    dsimp only
    split
    case h_1 op hfind => exact ih op (List.mem_of_find?_eq_some hfind) _
    case h_2 => exact ht

theorem keywords_ne : ∀ k ∈ keywords, k.2 ≠ .tokIntLiteral := by decide

theorem scanIdentifier_fst_ne (L : LexerState) : (scanIdentifier L).1 ≠ .tokIntLiteral := by
  unfold scanIdentifier
  dsimp only
  split
  · simp
  · split
    case h_1 => simp
    case h_2 k t _ hfind => exact keywords_ne (k, t) (List.mem_of_find?_eq_some hfind)
    case h_3 => simp

theorem scanString_fst_ne (L : LexerState) : (scanString L).1 ≠ .tokIntLiteral := by
  unfold scanString
  dsimp only
  split
  · simp
  · split <;> simp

theorem scanChar_fst_ne (L : LexerState) : (scanChar L).1 ≠ .tokIntLiteral := by
  unfold scanChar
  dsimp only
  split
  · simp
  split
  · dsimp only
    split <;> simp
  · simp

theorem scanDots_fst_ne (L : LexerState) : (scanDots L).1 ≠ .tokIntLiteral := by
  unfold scanDots
  dsimp only
  split <;> simp

theorem scanOther_fst_ne (L : LexerState) : (scanOther L).1 ≠ .tokIntLiteral := by
  unfold scanOther
  split <;> simp

theorem gettokScan_intLiteral (fuel : ℕ) {L L' : LexerState}
    (h : gettokScan fuel L = .ok .tokIntLiteral L') : SaysLiteral L' := by
  have hreturns : ∀ {r : Token × LexerState}, r.1 ≠ .tokIntLiteral →
      returns r = .ok .tokIntLiteral L' → SaysLiteral L' := by
    intro r hr heq
    injection heq with heq
    exact absurd heq hr
  induction fuel generalizing L with
  | zero => simp [gettokScan] at h
  | succ n ih =>
    unfold gettokScan at h
    dsimp only at h
    split at h
    · exact hreturns (scanIdentifier_fst_ne _) h
    split at h
    · exact hreturns (scanString_fst_ne _) h
    split at h
    · exact hreturns (scanChar_fst_ne _) h
    split at h
    · exact hreturns (scanDots_fst_ne _) h
    split at h
    · unfold runNumber at h
      split at h
      case h_1 t s heq =>
        injection h with ht hL
        subst ht hL
        exact (meets_scanNumber _).ok heq rfl
      case h_2 => cases h
    split at h
    case h_1 op hfind =>
      exact hreturns ((isOperator_of_mem op (List.mem_of_find?_eq_some hfind)).fst_ne _) h
    case h_2 =>
      split at h
      · split at h
        · exact ih h
        · exact hreturns (scanOther_fst_ne _) h
      split at h
      · exact hreturns (by simp) h
      · exact hreturns (scanOther_fst_ne _) h

/-- What an integer literal leaves in the lexer says the number it is spelled as. -/
theorem gettok_intLiteral {L L' : LexerState} (h : gettok L = .ok .tokIntLiteral L') :
    SaysLiteral L' := by
  unfold gettok at h
  dsimp only at h
  split at h
  case h_1 t L₁ heq =>
    injection h with ht hL
    subst ht hL
    obtain ⟨hdigits, hvalue⟩ := gettokScan_intLiteral _ heq
    exact ⟨hdigits, hvalue⟩
  case h_2 => cases h

end Lexer

end TurfLang
