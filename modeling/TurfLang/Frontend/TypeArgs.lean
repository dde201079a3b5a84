import TurfLang.Frontend.ArrayDimensions

/-!
# Closing angle brackets written together

The lexer takes the longest operator it can, so the brackets that close a nested argument list come
as one token when nothing stands between them. `ParseTypeArgList` splits one bracket off such a
token and leaves the rest as the current token. `Fused fs ts` says that `fs` are the tokens of a
text in which some of these brackets are written together, and `ts` those of the same text in which
they are not; the parser of types cannot tell the two apart.
-/

namespace TurfLang

namespace ParserCore

open Lexer

/-! ### Two spellings -/

/-- What is left of a token when the bracket it begins with is split off. -/
def splitClose : Token → Option Token
  | .tokRshift => some (.char 62)
  | .tokRshiftAssign => some .tokGeq
  | .tokGeq => some .tokAssign
  | _ => none

/-- Two tokens that a parser of types reads alike. -/
structure SameToken (t u : LexedToken) : Prop where
  tok : t.tok = u.tok
  identifierStr : t.identifierStr = u.identifierStr
  numLitClean : t.numLitClean = u.numLitClean
  numLitRadix : t.numLitRadix = u.numLitRadix

/-- The same tokens, but that a bracket and what follows it may be one token on the left. -/
inductive Fused : Tokens → Tokens → Prop
  | nil : Fused [] []
  | same {t u : LexedToken} {fs ts : Tokens} (htok : SameToken t u) (h : Fused fs ts) :
    Fused (t :: fs) (u :: ts)
  | split {t u : LexedToken} {fs ts : Tokens} {rest : Token} (ht : splitClose t.tok = some rest)
    (hu : u.tok = .char 62) (h : Fused ({ t with tok := rest } :: fs) ts) :
    Fused (t :: fs) (u :: ts)

section Fused

variable {fs ts : Tokens} {c : Token}

/-- Only a bracket on the right can be part of a token on the left. -/
theorem Fused.of_ne_close (h : Fused fs ts) (hc : curTok ts ≠ .char 62) :
    curTok fs = curTok ts ∧ Fused fs.tail ts.tail ∧ identifier fs = identifier ts := by
  cases h with
  | nil => exact ⟨rfl, .nil, rfl⟩
  | same htok h =>
    refine ⟨htok.tok, h, ?_⟩
    simp [identifier, htok.identifierStr]
  | split ht hu h => exact absurd hu hc

theorem Fused.curTok_iff (h : Fused fs ts) (hc : c ≠ .char 62) (hs : splitClose c = none) :
    curTok fs = c ↔ curTok ts = c := by
  cases h with
  | nil => exact Iff.rfl
  | same htok h => simp only [curTok_cons, htok.tok]
  | split ht hu h =>
    constructor
    · rintro rfl
      rw [curTok_cons, ht] at hs
      cases hs
    · rintro rfl
      exact absurd hu hc

theorem Fused.tail (h : Fused fs ts) (hc : curTok ts = c) (hne : c ≠ .char 62) :
    Fused fs.tail ts.tail :=
  (h.of_ne_close (by rwa [hc])).2.1

theorem afterClose_of_close (h : curTok ts = .char 62) : afterClose ts = some ts.tail := by
  rw [afterClose, if_pos h]

theorem afterClose_of_ne (h : curTok ts ≠ .char 62) :
    afterClose ts = (splitClose (curTok ts)).map fun rest => setCurTok rest ts := by
  rw [afterClose, if_neg h]
  cases curTok ts <;> simp [splitClose]

/-- A closing bracket is there in both spellings or in none. -/
theorem Fused.afterClose (h : Fused fs ts) :
    (ParserCore.afterClose fs = none ∧ ParserCore.afterClose ts = none) ∨
      ∃ fs' ts', ParserCore.afterClose fs = some fs' ∧ ParserCore.afterClose ts = some ts' ∧
        Fused fs' ts' ∧ fs'.length ≤ fs.length ∧ ts'.length ≤ ts.length := by
  cases h with
  | nil => exact .inl ⟨rfl, rfl⟩
  | @same t u fs ts htok h =>
    by_cases hu : u.tok = .char 62
    · have ht : t.tok = .char 62 := htok.tok.trans hu
      exact .inr ⟨fs, ts, afterClose_of_close ht, afterClose_of_close hu, h, by simp, by simp⟩
    · have ht : curTok (t :: fs) ≠ .char 62 := by rwa [curTok_cons, htok.tok]
      have hu' : curTok (u :: ts) ≠ .char 62 := hu
      rw [afterClose_of_ne ht, afterClose_of_ne hu', curTok_cons, curTok_cons, htok.tok]
      cases hs : splitClose u.tok with
      | none => exact .inl ⟨rfl, rfl⟩
      | some rest =>
        refine .inr ⟨_, _, rfl, rfl, .same ⟨rfl, ?_, ?_, ?_⟩ h, by simp, by simp⟩
        · exact htok.identifierStr
        · exact htok.numLitClean
        · exact htok.numLitRadix
  | @split t u fs ts rest ht hu h =>
    have hne : curTok (t :: fs) ≠ .char 62 := by
      rintro heq
      simp [show t.tok = _ from heq, splitClose] at ht
    refine .inr ⟨_, ts, ?_, afterClose_of_close hu, h, by simp, by simp⟩
    rw [afterClose_of_ne hne, curTok_cons, ht]
    rfl

end Fused

/-! ### Parsers that read both spellings alike -/

section Agrees

variable {α β : Type} {n m n' m' : ℕ} {fs ts : Tokens}

/-- What is parsed from two spellings: the same, with the same tokens left but for their spelling,
and no more than `n` and `m` of them; or nothing. -/
def Agrees (n m : ℕ) : Except ParseError (α × Tokens) → Except ParseError (α × Tokens) → Prop
  | .ok (a, fs), .ok (b, ts) => a = b ∧ Fused fs ts ∧ fs.length ≤ n ∧ ts.length ≤ m
  | .error _, .error _ => True
  | _, _ => False

/-- A parser that cannot tell the spellings apart. -/
def Respects (p : Tokens → Except ParseError (α × Tokens)) : Prop :=
  ∀ fs ts, Fused fs ts → Agrees fs.length ts.length (p fs) (p ts)

variable {r s : Except ParseError (α × Tokens)}

theorem agrees_error {e e' : ParseError} : Agrees n m (.error e : Except _ (α × Tokens)) (.error e') :=
  trivial

theorem agrees_ok {a : α} (h : Fused fs ts) (hn : fs.length ≤ n) (hm : ts.length ≤ m) :
    Agrees n m (.ok (a, fs)) (.ok (a, ts)) :=
  ⟨rfl, h, hn, hm⟩

theorem Agrees.bind {k k' : α × Tokens → Except ParseError (β × Tokens)} (h : Agrees n m r s)
    (hk : ∀ a fs ts, Fused fs ts → fs.length ≤ n → ts.length ≤ m →
      Agrees n' m' (k (a, fs)) (k' (a, ts))) : Agrees n' m' (r >>= k) (s >>= k') := by
  match r, s, h with
  | .ok (a, fs), .ok (b, ts), ⟨hab, hf, hn, hm⟩ =>
    subst hab
    exact hk a fs ts hf hn hm
  | .error _, .error _, _ => trivial

theorem Agrees.mono (h : Agrees n m r s) (hn : n ≤ n') (hm : m ≤ m') : Agrees n' m' r s := by
  match r, s, h with
  | .ok (a, fs), .ok (b, ts), ⟨hab, hf, hfs, hts⟩ => exact ⟨hab, hf, hfs.trans hn, hts.trans hm⟩
  | .error _, .error _, _ => trivial

theorem agrees_ite {c d : Prop} [Decidable c] [Decidable d]
    {r' s' : Except ParseError (α × Tokens)} (hcd : c ↔ d) (hpos : d → Agrees n m r s)
    (hneg : ¬ d → Agrees n m r' s') :
    Agrees n m (if c then r else r') (if d then s else s') := by
  by_cases hd : d
  · rw [if_pos hd, if_pos (hcd.2 hd)]
    exact hpos hd
  · rw [if_neg hd, if_neg (fun hc => hd (hcd.1 hc))]
    exact hneg hd

/-- `if (CurTok != c) raise(...)`, and then what follows. -/
theorem agrees_unless {c d : Token} {u : Token} {e e' : ParseError} {k k' : β → _}
    (hcd : c = u ↔ d = u) (h : d = u → Agrees n m r s) :
    Agrees n m (if c ≠ u then throw e >>= k else r) (if d ≠ u then throw e' >>= k' else s) := by
  refine agrees_ite (not_congr hcd) (fun _ => agrees_error) fun hd => h (not_not.1 hd)

/-- A step that is one of two, and then what follows. -/
theorem Agrees.bind_ite {c d : Prop} [Decidable c] [Decidable d]
    {r' s' : Except ParseError (α × Tokens)} {k k' : α × Tokens → Except ParseError (β × Tokens)}
    (hcd : c ↔ d) (hpos : d → Agrees n m r s) (hneg : ¬ d → Agrees n m r' s')
    (hk : ∀ a fs ts, Fused fs ts → fs.length ≤ n → ts.length ≤ m →
      Agrees n' m' (k (a, fs)) (k' (a, ts))) :
    Agrees n' m' (if c then r >>= k else r' >>= k) (if d then s >>= k' else s' >>= k') :=
  agrees_ite hcd (fun hd => (hpos hd).bind hk) fun hd => (hneg hd).bind hk

end Agrees

/-! ### The parser of types -/

section Parse

variable {ctx : TypeContext} {fs ts : Tokens}

theorem parseSize_agrees {texts : DimensionTexts} (h : Fused fs ts) :
    Agrees fs.length ts.length (parseSize ctx texts fs) (parseSize ctx texts ts) := by
  cases h with
  | nil => exact agrees_ok .nil le_rfl le_rfl
  | @same t u fs ts htok h =>
    have hid : identifier (t :: fs) = identifier (u :: ts) := by
      simp [identifier, htok.identifierStr]
    have hsize : literalSize t = literalSize u := by
      rw [literalSize, literalSize, htok.numLitClean, htok.numLitRadix]
    simp only [parseSize, hid, hsize]
    refine agrees_ite (by rw [htok.tok]) (fun _ => agrees_ok h (by simp) (by simp)) fun _ => ?_
    refine agrees_ite (by rw [htok.tok]) (fun _ => ?_)
      fun _ => agrees_ok (.same htok h) le_rfl le_rfl
    exact agrees_ite Iff.rfl (fun _ => agrees_error) fun _ => agrees_ok h (by simp) (by simp)
  | @split t u fs ts rest ht hu h =>
    have hname : ∀ v : LexedToken, (v.tok = t.tok ∨ v.tok = u.tok) →
        v.tok ≠ .tokIdentifier ∧ v.tok ≠ .tokIntLiteral := by
      rintro v (hv | hv) <;> rw [hv]
      · constructor <;> rintro heq <;> simp [heq, splitClose] at ht
      · rw [hu]
        exact ⟨by simp, by simp⟩
    obtain ⟨ht1, ht2⟩ := hname t (.inl rfl)
    obtain ⟨hu1, hu2⟩ := hname u (.inr rfl)
    simp only [parseSize, ht1, ht2, hu1, hu2, false_and, if_false]
    exact agrees_ok (.split ht hu h) le_rfl le_rfl

theorem parseDimension_agrees {texts : DimensionTexts} (h : Fused fs ts)
    (hopen : curTok ts = .char 91) :
    Agrees (fs.length - 1) (ts.length - 1) (parseDimension ctx texts fs)
      (parseDimension ctx texts ts) := by
  unfold parseDimension
  refine (parseSize_agrees (h.tail hopen (by simp))).bind fun size fs₁ ts₁ h₁ hn hm => ?_
  refine agrees_unless (h₁.curTok_iff (by simp) rfl) fun hclose => ?_
  rw [List.length_tail] at hn hm
  exact agrees_ok (h₁.tail hclose (by simp)) (show fs₁.tail.length ≤ _ by rw [List.length_tail]; omega)
    (show ts₁.tail.length ≤ _ by rw [List.length_tail]; omega)

theorem parseDimensions_agrees {texts : DimensionTexts} (n m : ℕ) (h : Fused fs ts)
    (hn : fs.length ≤ n) (hm : ts.length ≤ m) :
    Agrees fs.length ts.length (parseDimensions ctx texts n fs) (parseDimensions ctx texts m ts) := by
  induction n generalizing fs ts m with
  | zero =>
    obtain rfl : fs = [] := by simpa using hn
    cases h
    cases m <;> simp [parseDimensions, Agrees, Fused.nil]
  | succ n ih =>
    cases m with
    | zero =>
      obtain rfl : ts = [] := by simpa using hm
      cases h
      simp [parseDimensions, Agrees, Fused.nil]
    | succ m =>
      simp only [parseDimensions]
      refine agrees_ite (h.curTok_iff (by simp) rfl) (fun hopen => ?_)
        fun _ => agrees_ok h le_rfl le_rfl
      refine (parseDimension_agrees h hopen).bind fun size fs₁ ts₁ h₁ hn₁ hm₁ => ?_
      refine (ih m h₁ (by omega) (by omega)).bind fun sizes fs₂ ts₂ h₂ hn₂ hm₂ => ?_
      exact agrees_ok h₂ (show fs₂.length ≤ _ by omega) (show ts₂.length ≤ _ by omega)

theorem parseArrayDims_agrees {texts : DimensionTexts} {base : TurfType} (h : Fused fs ts) :
    Agrees fs.length ts.length (parseArrayDims ctx texts base fs)
      (parseArrayDims ctx texts base ts) := by
  unfold parseArrayDims
  refine (parseDimensions_agrees _ _ h le_rfl le_rfl).bind fun sizes fs₁ ts₁ h₁ hn hm => ?_
  exact agrees_ok h₁ hn hm

theorem parseStars_agrees (base : TurfType) (h : Fused fs ts) :
    (parseStars base fs).1 = (parseStars base ts).1 ∧
      Fused (parseStars base fs).2 (parseStars base ts).2 ∧
      (parseStars base fs).2.length ≤ fs.length ∧ (parseStars base ts).2.length ≤ ts.length := by
  induction h generalizing base with
  | nil => exact ⟨rfl, .nil, le_rfl, le_rfl⟩
  | @same t u fs ts htok h ih =>
    by_cases hstar : u.tok = .char 42
    · simp only [parseStars, htok.tok, if_pos hstar]
      obtain ⟨hT, hf, hn, hm⟩ := ih (.pointer base)
      exact ⟨hT, hf, by simp only [List.length_cons]; omega, by simp only [List.length_cons]; omega⟩
    · simp only [parseStars, htok.tok, if_neg hstar]
      exact ⟨trivial, .same htok h, le_rfl, le_rfl⟩
  | @split t u fs ts rest ht hu h ih =>
    have hne : t.tok ≠ .char 42 := by
      rintro heq
      simp [heq, splitClose] at ht
    have hneu : u.tok ≠ .char 42 := by simp [hu]
    simp only [parseStars, if_neg hne, if_neg hneu]
    exact ⟨trivial, .split ht hu h, le_rfl, le_rfl⟩

variable {parse : TypeParser} (hparse : Respects parse)
include hparse

omit hparse in
theorem tail_lt {l : Tokens} {c : Token} (h : curTok l = c) (hc : c ≠ .tokEof) :
    l.tail.length < l.length := by
  cases l with
  | nil => exact absurd h.symm hc
  | cons => simp

/-- The list of arguments, where each round leaves a comma. -/
theorem parseTypeArgs_agrees (n m : ℕ) (h : Fused fs ts) (hn : fs.length < n) (hm : ts.length < m) :
    Agrees fs.length ts.length (parseTypeArgs parse n fs) (parseTypeArgs parse m ts) := by
  induction n generalizing fs ts m with
  | zero => omega
  | succ n ih =>
    obtain ⟨m, rfl⟩ : ∃ k, m = k + 1 := ⟨m - 1, by omega⟩
    simp only [parseTypeArgs]
    refine (hparse fs ts h).bind fun arg fs₁ ts₁ h₁ hn₁ hm₁ => ?_
    obtain ⟨hf, ht⟩ | ⟨fs', ts', hf, ht, h', hn', hm'⟩ := h₁.afterClose
    · simp only [hf, ht]
      refine agrees_unless (h₁.curTok_iff (by simp) rfl) fun hcomma => ?_
      have hposf := tail_lt ((h₁.curTok_iff (by simp) rfl).2 hcomma) (by simp)
      have hpost := tail_lt hcomma (by simp)
      refine (ih m (h₁.tail hcomma (by simp)) (by omega) (by omega)).bind
        fun args fs₂ ts₂ h₂ hn₂ hm₂ => ?_
      exact agrees_ok h₂ (show fs₂.length ≤ _ by omega) (show ts₂.length ≤ _ by omega)
    · simp only [hf, ht]
      exact agrees_ok h' (show fs'.length ≤ _ by omega) (show ts'.length ≤ _ by omega)

theorem parseTypeArgList_agrees (h : Fused fs ts) (hopen : curTok ts = .char 60) :
    Agrees fs.length ts.length (parseTypeArgList parse fs) (parseTypeArgList parse ts) := by
  have hf := List.length_tail (l := fs)
  have ht := List.length_tail (l := ts)
  exact (parseTypeArgs_agrees hparse _ _ (h.tail hopen (by simp)) (by omega) (by omega)).mono
    (by omega) (by omega)

theorem parseParamTypes_agrees (n m : ℕ) (h : Fused fs ts) (hn : fs.length < n)
    (hm : ts.length < m) :
    Agrees fs.length ts.length (parseParamTypes parse n fs) (parseParamTypes parse m ts) := by
  induction n generalizing fs ts m with
  | zero => omega
  | succ n ih =>
    obtain ⟨m, rfl⟩ : ∃ k, m = k + 1 := ⟨m - 1, by omega⟩
    simp only [parseParamTypes]
    refine (hparse fs ts h).bind fun param fs₁ ts₁ h₁ hn₁ hm₁ => ?_
    refine agrees_ite (h₁.curTok_iff (by simp) rfl) (fun hcomma => ?_)
      fun _ => agrees_ok h₁ hn₁ hm₁
    have hposf := tail_lt ((h₁.curTok_iff (by simp) rfl).2 hcomma) (by simp)
    have hpost : ts₁.tail.length < ts₁.length := tail_lt hcomma (by simp)
    refine (ih m (h₁.tail hcomma (by simp)) (by omega) (by omega)).bind
      fun params fs₂ ts₂ h₂ hn₂ hm₂ => ?_
    exact agrees_ok h₂ (show fs₂.length ≤ _ by omega) (show ts₂.length ≤ _ by omega)

theorem parseFuncType_agrees : Respects (parseFuncType parse) := by
  intro fs ts h
  unfold parseFuncType
  refine agrees_unless (h.curTok_iff (by simp) rfl) fun hopen => ?_
  have h₀ := h.tail hopen (by simp)
  have hf := List.length_tail (l := fs)
  have ht := List.length_tail (l := ts)
  refine Agrees.bind_ite (not_congr (h₀.curTok_iff (by simp) rfl))
    (fun _ => parseParamTypes_agrees hparse _ _ h₀ (by omega) (by omega))
    (fun _ => agrees_ok h₀ le_rfl le_rfl) fun params fs₁ ts₁ h₁ hn₁ hm₁ => ?_
  refine agrees_unless (h₁.curTok_iff (by simp) rfl) fun hclose => ?_
  have h₂ := h₁.tail hclose (by simp)
  have hf₁ := List.length_tail (l := fs₁)
  have ht₁ := List.length_tail (l := ts₁)
  refine agrees_unless (h₂.curTok_iff (by simp) rfl) fun hcolon => ?_
  have hf₂ := List.length_tail (l := fs₁.tail)
  have ht₂ := List.length_tail (l := ts₁.tail)
  refine (hparse _ _ (h₂.tail hcolon (by simp))).bind fun ret fs₃ ts₃ h₃ hn₃ hm₃ => ?_
  exact agrees_ok h₃ (show fs₃.length ≤ _ by omega) (show ts₃.length ≤ _ by omega)

theorem parseGroupedType_agrees (openLoc openLoc' : SourceLocation) (h : Fused fs ts) :
    Agrees fs.length ts.length (parseGroupedType ctx parse openLoc fs)
      (parseGroupedType ctx parse openLoc' ts) := by
  unfold parseGroupedType
  have hfirst : (curTok fs ≠ .char 38 ∧ curTok fs ≠ .tokFn) ↔
      (curTok ts ≠ .char 38 ∧ curTok ts ≠ .tokFn) :=
    and_congr (not_congr (h.curTok_iff (by simp) rfl)) (not_congr (h.curTok_iff (by simp) rfl))
  refine agrees_ite hfirst (fun _ => agrees_error) fun _ => ?_
  refine (hparse fs ts h).bind fun elem fs₁ ts₁ h₁ hn₁ hm₁ => ?_
  refine agrees_unless (h₁.curTok_iff (by simp) rfl) fun hclose => ?_
  have h₂ := h₁.tail hclose (by simp)
  have hf₁ := List.length_tail (l := fs₁)
  have ht₁ := List.length_tail (l := ts₁)
  refine agrees_unless (h₂.curTok_iff (by simp) rfl) fun _ => ?_
  exact (parseArrayDims_agrees h₂).mono (by omega) (by omega)

theorem parseReferenceType_agrees : Respects (parseReferenceType parse) := by
  intro fs ts h
  unfold parseReferenceType
  refine agrees_ite (h.curTok_iff (by simp) rfl) (fun hnull => ?_) fun _ => ?_
  · have hf := List.length_tail (l := fs)
    have ht := List.length_tail (l := ts)
    refine (hparse _ _ (h.tail hnull (by simp))).bind fun pointee fs₁ ts₁ h₁ hn₁ hm₁ => ?_
    exact agrees_ok h₁ (show fs₁.length ≤ _ by omega) (show ts₁.length ≤ _ by omega)
  · exact (hparse _ _ h).bind fun pointee fs₁ ts₁ h₁ hn₁ hm₁ => agrees_ok h₁ hn₁ hm₁

omit hparse in
theorem parseQualified_agrees (baseName : String) : Respects (parseQualified ctx baseName) := by
  intro fs ts h
  unfold parseQualified
  refine agrees_ite (h.curTok_iff (by simp) rfl) (fun hscope => ?_)
    fun _ => agrees_ok h le_rfl le_rfl
  have h₁ := h.tail hscope (by simp)
  have hf := List.length_tail (l := fs)
  have ht := List.length_tail (l := ts)
  have hf₁ := List.length_tail (l := fs.tail)
  have ht₁ := List.length_tail (l := ts.tail)
  refine agrees_ite (not_congr (h₁.curTok_iff (by simp) rfl)) (fun _ => agrees_error) fun hname => ?_
  rw [not_not] at hname
  obtain ⟨-, h₂, hid⟩ := h₁.of_ne_close (by simp [hname])
  rw [hid]
  exact agrees_ok h₂ (by omega) (by omega)

theorem parseNamedType_agrees (isBuiltinType : Bool) (baseName : String) :
    Respects (parseNamedType ctx parse isBuiltinType baseName) := by
  intro fs ts h
  unfold parseNamedType
  refine (parseQualified_agrees baseName fs ts h).bind fun q fs₁ ts₁ h₁ hn₁ hm₁ => ?_
  refine agrees_ite (and_congr_left fun _ => h₁.curTok_iff (by simp) rfl) (fun hopen => ?_)
    fun _ => ?_
  · refine (parseTypeArgList_agrees hparse h₁ hopen.1).bind fun args fs₂ ts₂ h₂ hn₂ hm₂ => ?_
    obtain ⟨hT, hf, hn, hm⟩ := parseStars_agrees (.generic (qualifiedName q.1 q.2) args) h₂
    dsimp only
    rw [hT]
    exact (parseArrayDims_agrees hf).mono (by omega) (by omega)
  · obtain ⟨hT, hf, hn, hm⟩ := parseStars_agrees (baseType q.1 q.2) h₁
    dsimp only
    rw [hT]
    exact (parseArrayDims_agrees hf).mono (by omega) (by omega)

end Parse

/-- No token but the beginning of a closing bracket is read differently. -/
theorem parseType_of_close {ctx : TypeContext} {room : ℕ} {ts : Tokens}
    (h : curTok ts = .char 62 ∨ (splitClose (curTok ts)).isSome) :
    ∃ e, parseType ctx room ts = .error e := by
  cases room with
  | zero => exact ⟨_, rfl⟩
  | succ room =>
    unfold parseType
    cases hc : curTok ts <;> simp_all [splitClose, builtinName]

theorem parseType_respects (ctx : TypeContext) (room : ℕ) : Respects (parseType ctx room) := by
  induction room with
  | zero => exact fun fs ts _ => agrees_error
  | succ room ih =>
    intro fs ts h
    by_cases hclose : curTok ts = .char 62
    · obtain ⟨e, he⟩ : ∃ e, parseType ctx (room + 1) ts = .error e := parseType_of_close (.inl hclose)
      have hfs : curTok fs = .char 62 ∨ (splitClose (curTok fs)).isSome := by
        cases h with
        | nil => cases hclose
        | same htok h => exact .inl (htok.tok.trans hclose)
        | split ht hu h => exact .inr (by rw [curTok_cons, ht]; rfl)
      obtain ⟨e', he'⟩ : ∃ e, parseType ctx (room + 1) fs = .error e := parseType_of_close hfs
      rw [he, he']
      exact agrees_error
    · obtain ⟨hcur, htail, hid⟩ := h.of_ne_close hclose
      have hf := List.length_tail (l := fs)
      have ht := List.length_tail (l := ts)
      unfold parseType
      rw [hcur, hid]
      split
      case h_1 =>
        refine (ih _ _ htail).bind fun success fs₁ ts₁ h₁ hn₁ hm₁ => ?_
        exact agrees_ok h₁ (show fs₁.length ≤ _ by omega) (show ts₁.length ≤ _ by omega)
      case h_2 => exact (parseGroupedType_agrees ih _ _ htail).mono (by omega) (by omega)
      case h_3 => exact (parseReferenceType_agrees ih _ _ htail).mono (by omega) (by omega)
      case h_4 => exact (parseFuncType_agrees ih _ _ htail).mono (by omega) (by omega)
      case h_5 => exact (parseNamedType_agrees ih _ _ _ _ htail).mono (by omega) (by omega)
      case h_6 => exact agrees_ok htail (by omega) (by omega)
      case h_7 =>
        exact agrees_ite Iff.rfl (fun _ => agrees_ok htail (by omega) (by omega))
          fun _ => agrees_error
      case h_8 =>
        cases builtinName (curTok ts) with
        | none => exact agrees_error
        | some name => exact (parseNamedType_agrees ih _ _ _ _ htail).mono (by omega) (by omega)

end ParserCore

end TurfLang
