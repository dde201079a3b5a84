import TurfLang.Frontend.Lookahead
import TurfLang.Frontend.ParseType

/-!
# Array dimensions written as literals

Both copies of the loop over dimensions read a literal by `strtoll`, which stops at the largest
`long long`, and cut what it returns down to an `int`, which drops the bits above the lowest 32.
Only the sign of what is left is tested.
-/

namespace TurfLang

namespace ParserCore

open Lexer

section Loop

variable {ctx : TypeContext} {texts : DimensionTexts} {ts rest : Tokens} {size : ArraySize}

theorem parseSize_length (h : parseSize ctx texts ts = .ok (size, rest)) :
    rest.length ≤ ts.length := by
  unfold parseSize at h
  split at h
  case h_1 t ts =>
    split at h
    · obtain ⟨-, rfl⟩ : _ ∧ ts = rest := by simpa using h
      simp
    split at h
    · split at h
      · cases h
      · obtain ⟨-, rfl⟩ : _ ∧ ts = rest := by simpa using h
        simp
    · obtain ⟨-, rfl⟩ : _ ∧ t :: ts = rest := by simpa using h
      simp
  case h_2 =>
    obtain ⟨-, rfl⟩ : _ ∧ [] = rest := by simpa using h
    simp

/-- What a dimension that is read has between its brackets. -/
theorem parseDimension_eq_ok (h : parseDimension ctx texts ts = .ok (size, rest)) :
    ∃ ts', parseSize ctx texts ts.tail = .ok (size, ts') ∧ curTok ts' = .char 93 ∧
      rest = ts'.tail := by
  unfold parseDimension at h
  obtain ⟨⟨size', ts'⟩, hsize, h⟩ := Loop.bind_eq_ok.1 h
  by_cases hclose : curTok ts' = .char 93
  · simp only [hclose, ne_eq, not_true_eq_false, if_false] at h
    obtain ⟨rfl, rfl⟩ : size' = size ∧ ts'.tail = rest := by
      simpa [pure, Except.pure, bind, Except.bind] using h
    exact ⟨ts', hsize, hclose, rfl⟩
  · simp [hclose, throw, throwThe, MonadExceptOf.throw, bind, Except.bind] at h

theorem parseDimension_length (h : parseDimension ctx texts ts = .ok (size, rest)) :
    rest.length + 1 ≤ ts.length := by
  obtain ⟨ts', hsize, hclose, rfl⟩ := parseDimension_eq_ok h
  have hle := parseSize_length hsize
  cases ts with
  | nil =>
    obtain rfl : ts' = [] := by simpa using hle
    simp at hclose
  | cons t ts =>
    rw [List.length_tail, List.length_cons]
    rw [List.tail_cons] at hle
    omega

/-- The loop needs no more rounds than there are tokens. -/
theorem parseDimensions_fuel {fuel : ℕ} (h : ts.length ≤ fuel) :
    parseDimensions ctx texts fuel ts = parseDimensions ctx texts ts.length ts := by
  induction hn : ts.length using Nat.strong_induction_on generalizing ts fuel with
  | _ n ih =>
    cases ts with
    | nil =>
      subst hn
      cases fuel <;> simp [parseDimensions]
    | cons t ts =>
      obtain ⟨fuel, rfl⟩ : ∃ k, fuel = k + 1 := ⟨fuel - 1, by simp at h; omega⟩
      subst hn
      simp only [List.length_cons, parseDimensions]
      split
      case isFalse => rfl
      case isTrue =>
        cases hd : parseDimension ctx texts (t :: ts) with
        | error e => rfl
        | ok r =>
          have hlt := parseDimension_length hd
          simp only [List.length_cons] at h hlt
          have hrounds : ∀ k, r.2.length ≤ k →
              parseDimensions ctx texts k r.2 = parseDimensions ctx texts r.2.length r.2 :=
            fun k hk => ih _ (by simp only [List.length_cons]; omega) hk rfl
          simp only [bind, Except.bind]
          rw [hrounds fuel (by omega), hrounds ts.length (by omega)]

/-- After an opening bracket the type is an array of what the rest is parsed to. -/
theorem parseArrayDims_of_dimension {base : TurfType} (h : curTok ts = .char 91) :
    parseArrayDims ctx texts base ts = do
      let (size, ts) ← parseDimension ctx texts ts
      let (elem, ts) ← parseArrayDims ctx texts base ts
      return (.array elem size, ts) := by
  cases ts with
  | nil => simp at h
  | cons t ts =>
    unfold parseArrayDims
    simp only [List.length_cons, parseDimensions, if_pos h]
    cases hd : parseDimension ctx texts (t :: ts) with
    | error e => rfl
    | ok r =>
      have hlt := parseDimension_length hd
      simp only [List.length_cons] at hlt
      simp only [bind, Except.bind]
      rw [parseDimensions_fuel (by omega)]
      cases parseDimensions ctx texts r.2.length r.2 <;> rfl

theorem parseArrayDims_nil (base : TurfType) :
    parseArrayDims ctx texts base [] = .ok (base, []) := rfl

end Loop

/-! ### What a literal means there -/

/-- A token that `gettok` returned, with the fields it left. -/
def IsLexed (t : LexedToken) : Prop :=
  ∃ L L', gettok L = .ok t.tok L' ∧ t = captureToken L' t.tok

/-- The literal `t` between brackets is refused, or it makes an array of the size it is spelled as,
whatever the type before it and the dimensions after it are. -/
def DimensionMeans (parse : TurfType → Tokens → Except ParseError (TurfType × Tokens))
    (t : LexedToken) : Prop :=
  ∀ (base : TurfType) (opening closing : LexedToken) (rest : Tokens),
    opening.tok = .char 91 → closing.tok = .char 93 →
    (∃ e, parse base (opening :: t :: closing :: rest) = .error e) ∨
      ∃ elem rest', parse base rest = .ok (elem, rest') ∧
        parse base (opening :: t :: closing :: rest) =
          .ok (.array elem (.fixed (literalValue t.numLitSpelling)), rest')

/-- The numbers that the reading of a dimension takes for another: from `2 ^ 31` to the largest
`long long`, those with the lowest 32 bits of a positive `int`. -/
def TakenForAnother (v : ℕ) : Prop :=
  2 ^ 31 ≤ v ∧ v < 2 ^ 63 - 1 ∧ 0 < v % 2 ^ 32 ∧ v % 2 ^ 32 < 2 ^ 31

/-- What is read is refused or the number itself, unless that is taken for another. -/
theorem toInt32_iff (v : ℕ) :
    (toInt32 (min (v : ℤ) (2 ^ 63 - 1)) ≤ 0 ∨ toInt32 (min (v : ℤ) (2 ^ 63 - 1)) = v) ↔
      ¬ TakenForAnother v := by
  unfold toInt32 TakenForAnother
  rw [BitVec.toInt_ofInt, Int.bmod_def]
  norm_num
  rcases le_total (v : ℤ) 9223372036854775807 with hle | hle
  · rw [min_eq_left hle]
    split <;> omega
  · rw [min_eq_right hle]
    norm_num
    omega

theorem literalSize_eq {t : LexedToken} (ht : IsLexed t) (hint : t.tok = .tokIntLiteral) :
    literalSize t = toInt32 (min (literalValue t.numLitSpelling : ℤ) (2 ^ 63 - 1)) := by
  obtain ⟨L, L', hget, hcap⟩ := ht
  rw [hint] at hget
  obtain ⟨hdigits, hvalue⟩ := gettok_intLiteral hget
  rw [literalSize, strtoll, hcap]
  simp only [captureToken]
  rw [List.takeWhile_eq_self_iff.2 hdigits, hvalue]

theorem parseDimension_literal {ctx : TypeContext} {texts : DimensionTexts}
    {opening t closing : LexedToken} {rest : Tokens} (hint : t.tok = .tokIntLiteral)
    (hclose : closing.tok = .char 93) :
    parseDimension ctx texts (opening :: t :: closing :: rest) =
      if literalSize t ≤ 0 then .error (notPositiveError texts (t :: closing :: rest))
      else .ok (.fixed (literalSize t).toNat, rest) := by
  have hname : ¬ (t.tok = .tokIdentifier ∧
      identifier (t :: closing :: rest) ∈ ctx.sizeParamsInScope) := by
    simp [hint]
  simp only [parseDimension, List.tail_cons, parseSize, if_neg hname, if_pos hint]
  split
  · rfl
  · simp [bind, Except.bind, hclose, pure, Except.pure]

/-- A dimension means its literal just when no other number is read for that. -/
theorem dimensionMeans_iff {ctx : TypeContext} {texts : DimensionTexts} {t : LexedToken}
    (ht : IsLexed t) (hint : t.tok = .tokIntLiteral) :
    DimensionMeans (parseArrayDims ctx texts) t ↔
      ¬ TakenForAnother (literalValue t.numLitSpelling) := by
  rw [← toInt32_iff, ← literalSize_eq ht hint]
  have hparse : ∀ {base opening closing rest}, opening.tok = .char 91 → closing.tok = .char 93 →
      parseArrayDims ctx texts base (opening :: t :: closing :: rest) =
        if literalSize t ≤ 0 then .error (notPositiveError texts (t :: closing :: rest))
        else do
          let (elem, ts) ← parseArrayDims ctx texts base rest
          return (.array elem (.fixed (literalSize t).toNat), ts) := by
    intro base opening closing rest hopen hclose
    have hcur : curTok (opening :: t :: closing :: rest) = .char 91 := hopen
    rw [parseArrayDims_of_dimension hcur, parseDimension_literal hint hclose]
    split <;> rfl
  constructor
  · intro h
    by_cases hneg : literalSize t ≤ 0
    · exact .inl hneg
    · refine .inr ?_
      let bracket (c : UInt8) : LexedToken := { t with tok := .char c }
      have hrun : parseArrayDims ctx texts .int [bracket 91, t, bracket 93] =
          .ok (.array .int (.fixed (literalSize t).toNat), []) := by
        rw [hparse rfl rfl, if_neg hneg, parseArrayDims_nil]
        rfl
      obtain ⟨e, he⟩ | ⟨elem, rest', -, hok⟩ := h .int (bracket 91) (bracket 93) [] rfl rfl
      · rw [hrun] at he
        cases he
      · rw [hrun] at hok
        injection hok with hok
        injection hok with hT
        injection hT with _ hsize
        injection hsize with hsize
        omega
  · intro h base opening closing rest hopen hclose
    rw [hparse hopen hclose]
    by_cases hneg : literalSize t ≤ 0
    · exact .inl ⟨_, if_pos hneg⟩
    · rw [if_neg hneg]
      have hsize : (literalSize t).toNat = literalValue t.numLitSpelling := by
        have := h.resolve_left hneg
        omega
      cases hrest : parseArrayDims ctx texts base rest with
      | error e => exact .inl ⟨e, rfl⟩
      | ok r => exact .inr ⟨r.1, r.2, rfl, by rw [hsize]; rfl⟩

/-- In both copies of the loop, whatever the radix, the separators and the number of digits. -/
theorem dimension_means_iff (ctx : TypeContext) (t : LexedToken) (ht : IsLexed t)
    (hint : t.tok = .tokIntLiteral) :
    (DimensionMeans (parseTrailingArrayDims ctx) t ↔
        ¬ TakenForAnother (literalValue t.numLitSpelling)) ∧
      (DimensionMeans (parseGenericArrayDims ctx) t ↔
        ¬ TakenForAnother (literalValue t.numLitSpelling)) :=
  ⟨dimensionMeans_iff ht hint, dimensionMeans_iff ht hint⟩

/-- The token of the literal that a text begins with. -/
def firstToken (text : String) : LexedToken :=
  match gettok (openLexer (bytes text) "") with
  | .ok tok L => captureToken L tok
  | .error _ L => captureToken L .tokEof

theorem isLexed_firstToken {text : String} (h : raises (openLexer (bytes text) "") = false) :
    IsLexed (firstToken text) := by
  unfold raises at h
  split at h
  case h_1 tok L heq =>
    refine ⟨openLexer (bytes text) "", L, ?_, ?_⟩
    · simp only [firstToken, heq]
      rfl
    · simp only [firstToken, heq]
      rfl
  case h_2 => cases h

/-- `0x1_0` is a dimension of 16. -/
theorem dimension_means_iff_sample :
    literalValue (firstToken "0x1_0").numLitSpelling = 16 ∧
      DimensionMeans (parseTrailingArrayDims {}) (firstToken "0x1_0") :=
  ⟨by decide +kernel,
    (dimension_means_iff {} _ (isLexed_firstToken (by decide +kernel)) (by decide +kernel)).1.2
      (by unfold TakenForAnother; decide +kernel)⟩

/-- `int[4294967297]` is an array of one slot. -/
theorem dimension_wraps :
    literalValue (firstToken "4294967297").numLitSpelling = 4294967297 ∧
      parseType {} 1 (tokensOf (openLexer (bytes "int[4294967297]") "") 4) =
        .ok (.array .int (.fixed 1), []) ∧
      ¬ DimensionMeans (parseTrailingArrayDims {}) (firstToken "4294967297") := by
  refine ⟨by decide +kernel, by rfl, fun h => ?_⟩
  refine (dimensionMeans_iff (isLexed_firstToken (by decide +kernel)) (by decide +kernel)).1 h ?_
  unfold TakenForAnother
  decide +kernel

end ParserCore

end TurfLang
