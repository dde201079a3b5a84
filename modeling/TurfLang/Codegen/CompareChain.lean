import TurfLang.Codegen.CompareCode
import TurfLang.Lib.Pieces
import TurfLang.Sema.Exhaustive

/-!
# The pattern chain runs the arm that the source selects

Each pattern's tests do what matching the pattern does, with the bindings in the slots of the arm.
From the patterns this goes to a header with its guard, to the headers of an arm and to the chain.
The values of the headers have to be compared as what they are: an error value would be compared by
its address, and a double is truncated.
-/

namespace TurfLang

namespace Compare

variable {T : TypeTable} {σ : Type}

/-! ### Comparisons -/

theorem strcmp_eq_zero {a b : List (BitVec 8)} (ha : 0 ∉ a) (hb : 0 ∉ b) :
    strcmp a b = 0 ↔ a = b := by
  induction a generalizing b with
  | nil =>
    cases b with
    | nil => simp [strcmp]
    | cons y b =>
      have hy : y ≠ 0 := fun h => hb (by simp [h])
      have : y.toNat ≠ 0 := fun h => hy (BitVec.eq_of_toNat_eq (by simpa using h))
      simp only [strcmp, reduceCtorEq, iff_false]
      omega
  | cons x a ih =>
    cases b with
    | nil =>
      have hx : x ≠ 0 := fun h => ha (by simp [h])
      have : x.toNat ≠ 0 := fun h => hx (BitVec.eq_of_toNat_eq (by simpa using h))
      simp only [strcmp, reduceCtorEq, iff_false]
      omega
    | cons y b =>
      by_cases hxy : x = y
      · subst hxy
        simp [strcmp, ih (fun h => ha (List.mem_cons_of_mem _ h))
          fun h => hb (List.mem_cons_of_mem _ h)]
      · have : x.toNat ≠ y.toNat := fun h => hxy (BitVec.eq_of_toNat_eq h)
        simp only [strcmp, hxy, if_false, List.cons.injEq, false_and, iff_false]
        omega

/-- A value that `CastToType` turns into the number that it is. -/
def IsInt (v : Val) (bits : BitVec 64) : Prop :=
  castToInt v = some (.int bits) ∧ v.number = some (bits.toInt : ℚ)

theorem isInt_i64 (bits : BitVec 64) : IsInt (.i64 bits) bits := ⟨rfl, rfl⟩

theorem isInt_i32 (bits : BitVec 32) : IsInt (.i32 bits) (bits.signExtend 64) :=
  ⟨rfl, by simp [Val.number, BitVec.toInt_signExtend_of_le]⟩

theorem isInt_i8 (bits : BitVec 8) : IsInt (.i8 bits) (bits.setWidth 64) := by
  refine ⟨rfl, ?_⟩
  have : (bits.setWidth 64).toInt = bits.toNat := by
    have := bits.isLt
    rw [BitVec.toInt_eq_toNat_of_lt] <;> simp <;> omega
  simp [Val.number, this]

theorem isInt_i1 (bit : Bool) : IsInt (.i1 bit) (BitVec.ofNat 64 bit.toNat) := by
  refine ⟨rfl, ?_⟩
  cases bit <;> simp [Val.number]

/-- A double that is a whole number. -/
theorem isInt_double {n : ℤ} (hlo : -2 ^ 63 ≤ n) (hhi : n < 2 ^ 63) :
    IsInt (.double (some (n : ℚ))) (BitVec.ofInt 64 n) := by
  have hrange : (-2 ^ 63 : ℚ) ≤ n ∧ (n : ℚ) < 2 ^ 63 := by
    constructor
    · exact_mod_cast hlo
    · exact_mod_cast hhi
  have hn : (BitVec.ofInt 64 n).toInt = n := by
    rw [BitVec.toInt_ofInt]
    exact Int.bmod_eq_of_le (by omega) (by omega)
  constructor
  · simp [castToInt, checkedFPToSI, hrange]
  · simp [Val.number, hn]

theorem sameAs_of_isInt {v w : Val} {a b : BitVec 64} (hv : IsInt v a) (hw : IsInt w b) :
    v.sameAs w = decide (a = b) := by
  have heq : v.sameAs w = decide ((a.toInt : ℚ) = b.toInt) := by
    obtain ⟨-, hv⟩ := hv
    obtain ⟨-, hw⟩ := hw
    cases v <;> cases w <;> simp_all [Val.sameAs, Val.number]
  rw [heq]
  simp [BitVec.toInt_inj]

/-! ### Representations -/

/-- The kinds whose values are integers. -/
def Kind.isInteger : Kind → Bool
  | .int | .int32 | .char | .bool | .enum _ => true
  | _ => false

theorem exists_isInt {k : Kind} {v : Val} (hk : k.isInteger = true) (h : k.Fits v) :
    ∃ bits, IsInt v bits := by
  cases k <;> first | (cases hk; done) | cases v <;> first | (cases h; done) | skip
  · exact ⟨_, isInt_i64 _⟩
  · exact ⟨_, isInt_i32 _⟩
  · exact ⟨_, isInt_i8 _⟩
  · exact ⟨_, isInt_i1 _⟩
  · exact ⟨_, isInt_i64 _⟩

theorem exists_str {k : Kind} {v : Val} (hk : k = .string) (h : k.Fits v) : ∃ s, v = .str s := by
  subst hk
  cases v <;> first | exact ⟨_, rfl⟩ | cases h

theorem HasType.fits {typeAt : ℕ → TurfType} {v : Val} {τ : TurfType} (h : HasType T typeAt v τ) :
    (T.kind τ).Fits v := by
  cases h with
  | error h => obtain h | ⟨h, -⟩ := h <;> rw [h] <;> trivial
  | _ h => rw [h]; trivial

theorem negate_eq_some {proven : Bool} {v w : Val} (h : negate proven v = some w) :
    ∃ bits, w = .i64 bits := by
  cases v with
  | i64 bits =>
    simp only [negate] at h
    split at h <;> cases h
    exact ⟨_, rfl⟩
  | _ => cases h

theorem Lowered.negate_run {l : Lowered σ} {proven : Bool} {s s' : σ} {w : Val}
    (h : (l.negate proven).run s = some (w, s')) :
    (∃ bits, w = .i64 bits) ∧ ∃ v, l.run s = some (v, s') := by
  have hcode : ∀ l : Lowered σ,
      ((l.run s).bind fun r => (Compare.negate proven r.1).bind fun v => some (v, r.2)) =
        some (w, s') →
      (∃ bits, w = .i64 bits) ∧ ∃ v, l.run s = some (v, s') := by
    intro l h
    simp only [Option.bind_eq_some_iff, Option.some.injEq, Prod.mk.injEq] at h
    obtain ⟨⟨v, _⟩, hrun, _, hneg, rfl, rfl⟩ := h
    exact ⟨negate_eq_some hneg, v, hrun⟩
  cases l with
  | code run => exact hcode (.code run) h
  | const v =>
    cases v with
    | i64 bits =>
      simp only [negate] at h
      split at h
      · cases h
        exact ⟨⟨_, rfl⟩, _, rfl⟩
      · simp only [run, Option.map_eq_some_iff, Prod.mk.injEq] at h
        obtain ⟨_, hneg, rfl, rfl⟩ := h
        exact ⟨negate_eq_some hneg, _, rfl⟩
    | _ => exact hcode _ h

theorem IntLiteral.run_eq_some {l : IntLiteral} {s s' : σ} {w : Val}
    (h : (l.codegen : Lowered σ).run s = some (w, s')) : s' = s ∧ ∃ bits, w = .i64 bits := by
  induction l generalizing w s' with
  | digits value =>
    cases h
    exact ⟨rfl, _, rfl⟩
  | minus proven operand ih =>
    cases operand with
    | digits value =>
      cases h
      exact ⟨rfl, _, rfl⟩
    | minus p o =>
      obtain ⟨hbits, v, hv⟩ := Lowered.negate_run h
      exact ⟨(ih hv).1, hbits⟩

theorem ValueExpr.fits {e : ValueExpr T σ} {s s' : σ} {w : Val} (hresolves : e.resolves = true)
    (h : e.codegen.run s = some (w, s')) : (T.kind e.type).Fits w := by
  cases e with
  | int l =>
    obtain ⟨-, bits, rfl⟩ := IntLiteral.run_eq_some h
    rw [type, T.kind_int]
    trivial
  | char c =>
    cases h
    rw [type, T.kind_char]
    trivial
  | string bytes =>
    cases h
    rw [type, T.kind_string]
    trivial
  | bool val =>
    cases h
    rw [type, T.kind_bool]
    trivial
  | enumVariant E V =>
    simp only [codegen] at h
    split at h
    · rename_i variants hk
      cases h
      rw [type, hk]
      trivial
    · cases h
  | moduleConstant K value _ =>
    cases h
    cases value with
    | int _ => rw [type, ConstantValue.type, T.kind_int]; trivial
    | int32 _ => rw [type, ConstantValue.type, T.kind_int32]; trivial
    | double _ => rw [type, ConstantValue.type, T.kind_double]; trivial
    | bool _ => rw [type, ConstantValue.type, T.kind_bool]; trivial
    | string _ => rw [type, ConstantValue.type, T.kind_string]; trivial
  | other e => exact e.typed s w s' h

/-- A literal inside a pattern does not change the state. -/
theorem ValueExpr.run_state {e : ValueExpr T σ} {s s' : σ} {w : Val}
    (hshape : e.isValuePatternShape = true) (h : e.codegen.run s = some (w, s')) : s' = s := by
  cases e with
  | int l => exact (IntLiteral.run_eq_some h).1
  | enumVariant E V =>
    simp only [codegen] at h
    split at h <;> cases h
    rfl
  | moduleConstant | other => cases hshape
  | _ =>
    cases h
    rfl

/-! ### One value -/

/-- A header whose value is compared as what it is: no error value, which would be compared by its
address, and a double only when it is a whole number of 64 bits. -/
def ValueExpr.Comparable (e : ValueExpr T σ) : Prop :=
  (T.kind e.type).isAnyError = false ∧ (T.kind e.type).isUserError = false ∧
    ∀ s x s', e.codegen.run s = some (.double x, s') →
      ∃ n : ℤ, x = some (n : ℚ) ∧ -2 ^ 63 ≤ n ∧ n < 2 ^ 63

/-- The test that `emitPatternTest` emits for an expression. -/
def valueTest (e : ValueExpr T σ) (p : Place) (τ : TurfType) : Instr σ :=
  if τ.getName = "string" then .strTest p e.codegen else .intTest p e.codegen

/-- What a subject and a header of it are: two strings, or two integers. -/
theorem operands {τ : TurfType} {e : ValueExpr T σ} {v w : Val} {s s' : σ} (hsub : SubjectType T τ)
    (hv : (T.kind τ).Fits v) (hresolves : e.resolves = true)
    (hcompat : τ.typesCompatible e.type = true) (hcomp : e.Comparable)
    (hrun : e.codegen.run s = some (w, s')) :
    (τ.getName = "string" ∧ ∃ a b, v = .str a ∧ w = .str b) ∨
      τ.getName ≠ "string" ∧ ∃ a b, IsInt v a ∧ IsInt w b := by
  obtain ⟨hany, huser, hdouble⟩ := hcomp
  have hw := ValueExpr.fits hresolves hrun
  have hkind := hsub.kind_of_compatible (ValueExpr.isType hresolves) hcompat
  by_cases hstring : T.kind τ = .string
  · have hwstring : T.kind e.type = .string := by simpa [hstring] using hkind
    obtain ⟨a, rfl⟩ := exists_str hstring hv
    obtain ⟨b, rfl⟩ := exists_str hwstring hw
    exact .inl ⟨T.string_name τ hstring, a, b, rfl, rfl⟩
  · have hname : τ.getName ≠ "string" := fun hn => hstring <| by
      have := T.kind_congr τ .string hsub.isType T.isType_string hn hsub.isSubject
      rw [← this, T.kind_string]
    refine .inr ⟨hname, ?_⟩
    have hint : (T.kind τ).isInteger = true := by
      have hsubject := hsub.isSubject
      cases hk : T.kind τ <;> simp_all [Kind.isSubject, Kind.isInteger, Kind.isAnyError,
        Kind.isUserError]
    obtain ⟨a, ha⟩ := exists_isInt hint hv
    have hwide : T.kind e.type = .double ∨ (T.kind e.type).isInteger = true := by
      obtain h | ⟨-, h⟩ | ⟨-, h | h⟩ := hkind
      · exact .inr (h ▸ hint)
      · exact .inl h
      · exact .inr (h ▸ rfl)
      · exact .inl h
    obtain hd | hi := hwide
    · cases w with
      | double x =>
        obtain ⟨n, rfl, hlo, hhi⟩ := hdouble s x s' hrun
        exact ⟨a, _, ha, isInt_double hlo hhi⟩
      | _ => rw [hd] at hw; cases hw
    · obtain ⟨b, hb⟩ := exists_isInt hi hw
      exact ⟨a, b, ha, hb⟩

/-- The test answers whether the value equals that of the expression. -/
theorem valueTest_run {H : Heap T σ} {subject v : Val} {s : σ} {p : Place} {τ : TurfType}
    {e : ValueExpr T σ} (slots : Slots) (hload : p.load H subject s = some v)
    (hsub : SubjectType T τ) (hv : (T.kind τ).Fits v) (hresolves : e.resolves = true)
    (hcompat : τ.typesCompatible e.type = true) (hcomp : e.Comparable) :
    (valueTest e p τ).run H subject slots s =
      (e.codegen.run s).map fun r => (v.sameAs r.1, slots, r.2) := by
  cases hrun : e.codegen.run s with
  | none =>
    unfold valueTest
    split <;> simp [Instr.run, hload, hrun]
  | some r =>
    obtain ⟨w, s'⟩ := r
    obtain ⟨hname, a, b, rfl, rfl⟩ | ⟨hname, a, b, ha, hb⟩ :=
      operands hsub hv hresolves hcompat hcomp hrun
    · have hcmp := strcmp_eq_zero a.2 b.2
      simp [valueTest, hname, Instr.run, hload, hrun, Val.sameAs, hcmp, Subtype.ext_iff]
    · simp [valueTest, hname, Instr.run, hload, hrun, ha.1, hb.1, sameAs_of_isInt ha hb]

/-! ### One pattern -/

theorem errorVariantTag_inj {E V E' V' : String} (hV : ':' ∉ V.toList) (hV' : ':' ∉ V'.toList) :
    errorVariantTag E V = errorVariantTag E' V' ↔ E = E' ∧ V = V' := by
  refine ⟨fun h => ?_, fun ⟨hE, hV⟩ => by rw [hE, hV]⟩
  have hlist : V.toList.reverse ++ ':' :: ':' :: E.toList.reverse =
      V'.toList.reverse ++ ':' :: ':' :: E'.toList.reverse := by
    have := congrArg (fun t => t.toList.reverse) h
    simpa [errorVariantTag] using this
  obtain ⟨hVs, hEs⟩ := Pieces.append_cons_inj (by simpa using hV) (by simpa using hV') hlist
  simp only [List.cons.injEq, true_and] at hEs
  exact ⟨String.toList_inj.mp (List.reverse_injective hEs),
    String.toList_inj.mp (List.reverse_injective hVs)⟩

theorem TypeTable.identifier_of_find {E V : String} {variants : List ErrorVariant}
    {info : ErrorVariant} (hE : T.errorVariants E = some variants)
    (hV : variants.find? (·.name = V) = some info) : ':' ∉ V.toList := by
  have hname : info.name = V := by simpa using List.find?_some hV
  exact hname ▸ T.variant_identifier E variants hE info (List.mem_of_find?_eq_some hV)

/-- The slots after the bindings of a pattern are stored. -/
def storeAll (slots : Slots) (bindings : List (String × Val)) : Slots :=
  bindings.foldl (fun slots b => Function.update slots b.1 (some b.2)) slots

/-- The tests of a pattern do what matching does: a panic, a mismatch, or a match whose bindings
are in the slots. -/
def Agrees (m : Option (Option (List (String × Val)))) (slots : Slots) (s : σ)
    (r : Option (Bool × Slots × σ)) : Prop :=
  match m with
  | none => r = none
  | some none => ∃ slots', r = some (false, slots', s)
  | some (some bindings) => r = some (true, storeAll slots bindings, s)

section

variable {H : Heap T σ} {subject : Val}

theorem runTests_append (as bs : List (Instr σ)) (slots : Slots) (s : σ) :
    runTests H subject (as ++ bs) slots s = (do
      match ← runTests H subject as slots s with
      | (true, slots', s') => runTests H subject bs slots' s'
      | (false, slots', s') => return (false, slots', s')) := by
  induction as generalizing slots s with
  | nil => rfl
  | cons a as ih =>
    simp only [List.cons_append, runTests]
    cases a.run H subject slots s with
    | none => rfl
    | some r =>
      obtain ⟨b, slots', s'⟩ := r
      cases b with
      | false => rfl
      | true => exact ih slots' s'

/-- Two patterns one after the other. -/
theorem Agrees.append {m₁ m₂ : Option (Option (List (String × Val)))} {as bs : List (Instr σ)}
    {slots : Slots} {s : σ} (h₁ : Agrees m₁ slots s (runTests H subject as slots s))
    (h₂ : ∀ slots', Agrees m₂ slots' s (runTests H subject bs slots' s)) :
    Agrees (do
      match ← m₁ with
      | none => return none
      | some bindings => return (← m₂).map (bindings ++ ·)) slots s
      (runTests H subject (as ++ bs) slots s) := by
  rw [runTests_append]
  match m₁ with
  | none =>
    have h₁ : runTests H subject as slots s = none := h₁
    rw [h₁]
    rfl
  | some none =>
    obtain ⟨slots', h₁⟩ := h₁
    rw [h₁]
    exact ⟨slots', rfl⟩
  | some (some b) =>
    have h₁ : runTests H subject as slots s = some (true, storeAll slots b, s) := h₁
    have h₂ := h₂ (storeAll slots b)
    rw [h₁]
    match m₂ with
    | none => exact h₂
    | some none => exact h₂
    | some (some b') =>
      show runTests H subject bs (storeAll slots b) s = _
      rw [show runTests H subject bs (storeAll slots b) s = _ from h₂]
      simp [storeAll]

end

theorem ValueExpr.comparable_of_kind {e : ValueExpr T σ} (hresolves : e.resolves = true)
    (hkind : (T.kind e.type).isInteger = true ∨ T.kind e.type = .string) : e.Comparable := by
  refine ⟨?_, ?_, fun s x s' hrun => ?_⟩
  · obtain h | h := hkind
    · cases hk : T.kind e.type <;> simp_all [Kind.isInteger, Kind.isAnyError]
    · rw [h]; rfl
  · obtain h | h := hkind
    · cases hk : T.kind e.type <;> simp_all [Kind.isInteger, Kind.isUserError]
    · rw [h]; rfl
  · have hfits := ValueExpr.fits hresolves hrun
    obtain h | h := hkind
    · cases hk : T.kind e.type <;> simp_all [Kind.isInteger, Kind.Fits]
    · rw [h] at hfits
      cases hfits

theorem ValueExpr.comparable_of_shape {e : ValueExpr T σ} (hshape : e.isValuePatternShape = true)
    (hresolves : e.resolves = true) : e.Comparable := by
  refine ValueExpr.comparable_of_kind hresolves ?_
  cases e with
  | int l => exact .inl (by rw [type, T.kind_int]; rfl)
  | char c => exact .inl (by rw [type, T.kind_char]; rfl)
  | string bytes => exact .inr T.kind_string
  | bool val => exact .inl (by rw [type, T.kind_bool]; rfl)
  | enumVariant E V =>
    simp only [resolves] at hresolves
    split at hresolves
    · rename_i hk
      exact .inl (by rw [type, hk]; rfl)
    · cases hresolves
  | _ => cases hshape

theorem emitSubs_wildcards {subs : List (Pattern T σ)} {fields : List (String × TurfType)}
    {l : Place} {i : ℕ} (h : subs.all Pattern.isWildcard = true) :
    emitSubs subs fields l i = some [] := by
  induction subs generalizing fields i with
  | nil => simp [emitSubs]
  | cons p rest ih =>
    obtain ⟨hp, hrest⟩ := Bool.and_eq_true_iff.mp h
    cases fields with
    | nil => simp [emitSubs]
    | cons f fields =>
      cases p with
      | wildcard => simp [emitSubs, emitPatternTest, ih hrest]
      | _ => cases hp

mutual

/-- The tests of a pattern do what matching does. -/
theorem emitPatternTest_agrees : ∀ (p : Pattern T σ) {τ : TurfType} {l : Place},
    p.Suits τ → T.IsType τ → ∃ tests, emitPatternTest p l τ = some tests ∧
      ∀ {H : Heap T σ} {subject v : Val} {s : σ} (slots : Slots),
        l.load H subject s = some v → HasType T H.typeAt v τ →
        Agrees (matchPattern H s p v) slots s (runTests H subject tests slots s)
  | .wildcard, _, _, _, _ => ⟨[], rfl, fun _ _ _ => rfl⟩
  | .binding name, _, l, _, _ => by
    refine ⟨[.store name l], rfl, fun slots hload _ => ?_⟩
    simp [matchPattern, Agrees, runTests, Instr.run, hload, storeAll]
  | .struct _ fields _, τ, l, ⟨st, hk, hsuit⟩, _ => by
    obtain hk | ⟨q, rfl, hk⟩ := hk
    · obtain ⟨tests, hemit, htests⟩ := emitFields_agrees fields (l := l) hsuit (T.isType_field τ st hk)
      refine ⟨tests, ?_, fun slots hload hv => ?_⟩
      · simp [emitPatternTest, T.struct_pointee τ st hk, hk, Kind.struct?, hemit]
      · obtain ⟨vs, rfl, hvs⟩ := hv.of_struct hk
        exact htests slots hload hvs
    · obtain ⟨tests, hemit, htests⟩ :=
        emitFields_agrees fields (l := l.deref) hsuit (T.isType_field q st hk)
      refine ⟨tests, ?_, fun {H} {subject} {v} {s} slots hload hv => ?_⟩
      · simp [emitPatternTest, TurfType.pointee?, hk, Kind.struct?, hemit]
      · obtain ⟨a, rfl, ha⟩ := hv.of_reference
        obtain ⟨vs, hvs, hfields⟩ := (H.typed s a).of_struct (by rwa [ha])
        have hload' : l.deref.load H subject s = some (.struct vs) := by
          simp [Place.load, hload, hvs]
        have := htests slots hload' hfields
        simpa [matchPattern, Heap.deref, hvs] using this
  | .errorVariant E V subs hasParens hasRest, τ, l,
      ⟨variants, info, hE, hvariants, hinfo, hsuit⟩, _ => by
    obtain ⟨tests, hemit, htests⟩ := emitSubs_agrees subs (l := l) (i := 0) hsuit
      (T.isType_payload E variants hvariants info (List.mem_of_find?_eq_some hinfo))
    -- with wildcards only, there is nothing to test in the payload
    have hneeds : (if !subs.all Pattern.isWildcard then tests else []) = tests := by
      cases hall : subs.all Pattern.isWildcard with
      | false => rfl
      | true => simpa [emitSubs_wildcards hall] using hemit
    refine ⟨.tagTest l (errorVariantTag E V) :: tests, ?_,
      fun {H} {subject} {v} {s} slots hload hv => ?_⟩
    · simp only [emitPatternTest, hvariants, hinfo, hemit, Option.bind_eq_bind, Option.bind_some,
        hneeds]
      rfl
    · obtain ⟨a, E', V', variants', info', payload, rfl, hvariants', hinfo', hlen, htyped⟩ :=
        hv.of_error (hE.imp_right fun h => ⟨variants, h.1⟩)
      have htag : errorVariantTag E' V' = errorVariantTag E V ↔ E' = E ∧ V' = V :=
        errorVariantTag_inj (T.identifier_of_find hvariants' hinfo')
          (T.identifier_of_find hvariants hinfo)
      simp only [matchPattern, runTests, Instr.run, hload, Option.bind_eq_bind, Option.bind_some]
      by_cases hsame : E' = E ∧ V' = V
      · obtain ⟨rfl, rfl⟩ := hsame
        rw [hvariants] at hvariants'
        cases hvariants'
        rw [hinfo] at hinfo'
        cases hinfo'
        simpa using htests slots hload (by simpa using hlen) (by simpa using htyped)
      · simp [hsame, htag, Agrees]
  | .value e, τ, l, ⟨hshape, hresolves, hfield, hcompat⟩, hτ => by
    refine ⟨[valueTest e l τ], rfl, fun {H} {subject} {v} {s} slots hload hv => ?_⟩
    have hsub : SubjectType T τ := ⟨hτ, by
      cases hk : T.kind τ <;> simp_all [Kind.isComparableFieldType, Kind.isSubject]⟩
    have hrun := valueTest_run slots hload hsub hv.fits hresolves hcompat
      (ValueExpr.comparable_of_shape hshape hresolves)
    simp only [matchPattern, runTests, hrun]
    cases hr : e.codegen.run s with
    | none => rfl
    | some r =>
      obtain ⟨w, s'⟩ := r
      obtain rfl := ValueExpr.run_state hshape hr
      cases hsame : v.sameAs w <;> simp [hsame, Agrees, storeAll]

theorem emitFields_agrees : ∀ (fields : List (String × Pattern T σ)) {st : StructType} {l : Place},
    Pattern.SuitFields st fields → (∀ f ∈ st.fields, T.IsType f.type) →
    ∃ tests, emitFields st fields l = some tests ∧
      ∀ {H : Heap T σ} {subject : Val} {vs : List (String × Val)} {s : σ} (slots : Slots),
        l.load H subject s = some (.struct vs) → StructFields T H.typeAt st vs →
        Agrees (matchFields H s fields (.struct vs)) slots s (runTests H subject tests slots s)
  | [], _, _, _, _ => ⟨[], rfl, fun _ _ _ => rfl⟩
  | (name, p) :: rest, st, l, ⟨⟨f, hf, hsuit⟩, hsuits⟩, htypes => by
    obtain ⟨tests, hemit, htests⟩ := emitPatternTest_agrees p (l := l.field (st.fieldIndex name))
      hsuit (htypes f (List.mem_of_find?_eq_some hf))
    obtain ⟨later, hlater, hrest⟩ := emitFields_agrees rest (l := l) hsuits htypes
    refine ⟨tests ++ later, by simp [emitFields, hf, hemit, hlater],
      fun {H} {subject} {vs} {s} slots hload hvs => ?_⟩
    obtain ⟨w, hlookup, hw, hget⟩ := hvs.field hf
    have hfield : (Val.struct vs).field name = some w := hlookup
    have hw' : (l.field (st.fieldIndex name)).load H subject s = some w := by
      simp [Place.load, hload, StructType.fieldIndex, hget]
    rw [matchFields, hfield]
    exact (htests slots hw' hw).append fun slots' => hrest slots' hload hvs

theorem emitSubs_agrees : ∀ (subs : List (Pattern T σ)) {fields : List (String × TurfType)}
    {l : Place} {i : ℕ}, Pattern.SuitSubs subs fields → (∀ f ∈ fields, T.IsType f.2) →
    ∃ tests, emitSubs subs fields l i = some tests ∧
      ∀ {H : Heap T σ} {subject : Val} {a : ℕ} {E V : String} {payload : List Val} {s : σ}
        (slots : Slots), l.load H subject s = some (.error a E V payload) →
        (payload.drop i).length = fields.length →
        (∀ q ∈ fields.zip (payload.drop i), HasType T H.typeAt q.2 q.1.2) →
        Agrees (matchSubs H s subs (payload.drop i)) slots s (runTests H subject tests slots s)
  | [], _, _, _, _, _ => ⟨[], by simp [emitSubs], fun _ _ _ _ => by
    rw [matchSubs]
    exact rfl⟩
  | _ :: _, [], _, _, hsuit, _ => absurd hsuit (by simp [Pattern.SuitSubs])
  | p :: rest, (x, τ) :: fields, l, i, ⟨hsuit, hsuits⟩, htypes => by
    obtain ⟨hτ, htypes⟩ := List.forall_mem_cons.mp htypes
    obtain ⟨tests, hemit, htests⟩ := emitPatternTest_agrees p (l := l.payload i) hsuit hτ
    obtain ⟨later, hlater, hrest⟩ := emitSubs_agrees rest (l := l) (i := i + 1) hsuits htypes
    refine ⟨tests ++ later, by simp [emitSubs, hemit, hlater],
      fun {H} {subject} {a} {E} {V} {payload} {s} slots hload hlen htyped => ?_⟩
    cases hdrop : payload.drop i with
    | nil => simp [hdrop] at hlen
    | cons w ws =>
      rw [hdrop] at hlen htyped
      have hws : payload.drop (i + 1) = ws := by rw [← List.drop_drop, hdrop]; rfl
      have hget : payload[i]? = some w := by
        have := @List.getElem?_drop _ payload i 0
        rw [hdrop] at this
        simpa using this.symm
      have hw : (l.payload i).load H subject s = some w := by simp [Place.load, hload, hget]
      rw [matchSubs]
      refine (htests slots hw (htyped ((x, τ), w) (by simp))).append fun slots' => ?_
      have := hrest slots' hload (by simpa [hws] using hlen)
        fun q hq => htyped q (by rw [hws] at hq; simp [hq])
      rwa [hws] at this

end

/-! ### Bindings -/

mutual

/-- A match binds the names of the pattern. -/
theorem matchPattern_keys {H : Heap T σ} {s : σ} : ∀ (p : Pattern T σ) {v : Val}
    {b : List (String × Val)}, matchPattern H s p v = some (some b) → b.map Prod.fst = p.names
  | .wildcard, _, _, h => by
    cases h
    rfl
  | .binding name, _, _, h => by
    cases h
    rfl
  | .struct _ fields _, _, _, h => matchFields_keys fields h
  | .errorVariant E V subs _ _, v, b, h => by
    cases v with
    | error a E' V' payload =>
      simp only [matchPattern] at h
      split at h
      · exact matchSubs_keys subs h
      · cases h
    | _ => cases h
  | .value e, v, b, h => by
    simp only [matchPattern, bind, Option.bind_eq_some_iff, pure, Option.some.injEq] at h
    obtain ⟨⟨w, _⟩, -, hb⟩ := h
    split at hb <;> cases hb
    rfl

theorem matchFields_keys {H : Heap T σ} {s : σ} : ∀ (fields : List (String × Pattern T σ)) {v : Val}
    {b : List (String × Val)}, matchFields H s fields v = some (some b) →
    b.map Prod.fst = Pattern.namesOfFields fields
  | [], _, _, h => by
    cases h
    rfl
  | (name, p) :: rest, v, b, h => by
    simp only [matchFields] at h
    cases hw : v.field name with
    | none => rw [hw] at h; cases h
    | some w =>
      rw [hw] at h
      cases hp : matchPattern H s p w with
      | none => simp [hp] at h
      | some m =>
        cases m with
        | none => simp [hp] at h
        | some b₁ =>
          simp only [hp, bind, Option.bind_some, Option.bind_eq_some_iff, pure, Option.some.injEq,
            Option.map_eq_some_iff] at h
          obtain ⟨_, hrest, b₂, rfl, rfl⟩ := h
          rw [List.map_append, matchPattern_keys p hp, matchFields_keys rest hrest]
          rfl

theorem matchSubs_keys {H : Heap T σ} {s : σ} : ∀ (subs : List (Pattern T σ)) {vs : List Val}
    {b : List (String × Val)}, matchSubs H s subs vs = some (some b) →
    b.map Prod.fst = Pattern.namesOfSubs subs
  | [], _, _, h => by
    rw [matchSubs] at h
    cases h
    rfl
  | _ :: _, [], _, h => by cases h
  | p :: rest, w :: vs, b, h => by
    simp only [matchSubs] at h
    cases hp : matchPattern H s p w with
    | none => simp [hp] at h
    | some m =>
      cases m with
      | none => simp [hp] at h
      | some b₁ =>
        simp only [hp, bind, Option.bind_some, Option.bind_eq_some_iff, pure, Option.some.injEq,
          Option.map_eq_some_iff] at h
        obtain ⟨_, hrest, b₂, rfl, rfl⟩ := h
        rw [List.map_append, matchPattern_keys p hp, matchSubs_keys rest hrest]
        rfl

end

theorem matchHeaderPattern_keys {H : Heap T σ} {p : Pattern T σ} {v : Val} {s s' : σ}
    {b : List (String × Val)} (h : matchHeaderPattern H p v s = some (some b, s')) :
    b.map Prod.fst = p.names := by
  cases p with
  | value e =>
    simp only [matchHeaderPattern, bind, Option.bind_eq_some_iff, pure, Option.some.injEq,
      Prod.mk.injEq] at h
    obtain ⟨_, -, hb, -⟩ := h
    split at hb <;> cases hb
    rfl
  | _ =>
    simp only [matchHeaderPattern, Option.map_eq_some_iff, Prod.mk.injEq] at h
    obtain ⟨_, hm, rfl, -⟩ := h
    exact matchPattern_keys _ hm

namespace Pattern

mutual

/-- The Resolver collects the names of a pattern, each once. -/
theorem resolveArmPattern_eq_ok : ∀ (p : Pattern T σ) {names r : List String},
    p.resolveArmPattern names = .ok r → r = names ++ p.names ∧ (names.Nodup → r.Nodup)
  | wildcard, _, _, h | value _, _, _, h => by
    cases h
    exact ⟨(List.append_nil _).symm, id⟩
  | binding name, headerNames, r, h => by
    simp only [resolveArmPattern] at h
    split at h
    · cases h
    · rename_i hnew
      cases h
      refine ⟨rfl, fun hn => ?_⟩
      rw [← List.concat_eq_append]
      exact hn.concat hnew
  | struct _ fields _, _, _, h => by
    simp only [resolveArmPattern] at h
    split at h
    · exact resolveFields_eq_ok fields h
    · cases h
  | errorVariant _ _ subs _ _, _, _, h => resolveSubs_eq_ok subs h

theorem resolveFields_eq_ok : ∀ (fields : List (String × Pattern T σ)) {names r : List String},
    resolveFields fields names = .ok r →
    r = names ++ namesOfFields fields ∧ (names.Nodup → r.Nodup)
  | [], _, _, h => by
    cases h
    exact ⟨(List.append_nil _).symm, id⟩
  | (_, p) :: rest, names, r, h => by
    simp only [resolveFields] at h
    cases hp : p.resolveArmPattern names with
    | error e => rw [hp] at h; cases h
    | ok mid =>
      rw [hp] at h
      obtain ⟨rfl, hnodup⟩ := resolveArmPattern_eq_ok p hp
      obtain ⟨rfl, hnodup'⟩ := resolveFields_eq_ok rest h
      exact ⟨List.append_assoc .., hnodup' ∘ hnodup⟩

theorem resolveSubs_eq_ok : ∀ (subs : List (Pattern T σ)) {names r : List String},
    resolveSubs subs names = .ok r → r = names ++ namesOfSubs subs ∧ (names.Nodup → r.Nodup)
  | [], _, _, h => by
    cases h
    exact ⟨(List.append_nil _).symm, id⟩
  | p :: rest, names, r, h => by
    simp only [resolveSubs] at h
    cases hp : p.resolveArmPattern names with
    | error e => rw [hp] at h; cases h
    | ok mid =>
      rw [hp] at h
      obtain ⟨rfl, hnodup⟩ := resolveArmPattern_eq_ok p hp
      obtain ⟨rfl, hnodup'⟩ := resolveSubs_eq_ok rest h
      exact ⟨List.append_assoc .., hnodup' ∘ hnodup⟩

end

end Pattern

/-- What the Resolver makes sure of: every header binds the names of the arm, each once. -/
def MatchesArm.Binds (arm : MatchesArm T σ) : Prop :=
  ∀ h ∈ arm.headers, h.pattern.names.Nodup ∧ h.pattern.names.Perm arm.bindings

theorem resolveHeaders_eq_ok {names : List String} : ∀ {headers : List (Header T σ)},
    resolveHeaders names headers = .ok () →
    ∀ h ∈ headers, h.pattern.names.Nodup ∧ h.pattern.names.Perm names
  | h :: rest, hok, h', hmem => by
    simp only [resolveHeaders] at hok
    cases hp : h.pattern.resolveArmPattern [] with
    | error e => rw [hp] at hok; cases hok
    | ok r =>
      obtain ⟨rfl, hnodup⟩ := Pattern.resolveArmPattern_eq_ok _ hp
      rw [hp] at hok
      by_cases hperm : h.pattern.names.Perm names
      · obtain rfl | hmem := List.mem_cons.mp hmem
        · exact ⟨hnodup .nil, hperm⟩
        · exact resolveHeaders_eq_ok (by simpa [hperm, bind, Except.bind] using hok) h' hmem
      · simp [bind, Except.bind, hperm] at hok

theorem MatchesArm.binds_of_resolve {arm : MatchesArm T σ} (h : arm.resolve = .ok ()) :
    arm.Binds := by
  obtain ⟨headers⟩ := arm
  cases headers with
  | nil => nofun
  | cons first rest =>
    simp only [resolve] at h
    cases hp : first.pattern.resolveArmPattern [] with
    | error e => rw [hp] at h; cases h
    | ok r =>
      obtain ⟨rfl, hnodup⟩ := Pattern.resolveArmPattern_eq_ok _ hp
      rw [hp] at h
      exact List.forall_mem_cons.mpr ⟨⟨hnodup .nil, .refl _⟩, resolveHeaders_eq_ok h⟩

theorem lookup_of_notMem {b : List (String × Val)} {name : String} (h : name ∉ b.map Prod.fst) :
    b.lookup name = none := by
  rw [List.lookup_eq_none_iff]
  intro p hp
  simpa using fun hname : name = p.1 => h (hname ▸ List.mem_map_of_mem hp)

/-- The slots of an arm after a header has matched hold the bindings of that header. -/
theorem restrict_storeAll {names : List String} {b : List (String × Val)} (slots : Slots)
    (hnodup : (b.map Prod.fst).Nodup) (hperm : (b.map Prod.fst).Perm names) :
    restrict names (storeAll slots b) = envOf b := by
  have hstore : ∀ slots name, storeAll slots b name = (b.lookup name).or (slots name) := by
    clear hperm
    induction b with
    | nil => intro slots name; rfl
    | cons x b ih =>
      intro slots name
      obtain ⟨k, w⟩ := x
      obtain ⟨hk, hnodup⟩ := List.nodup_cons.mp hnodup
      rw [storeAll, List.foldl_cons]
      refine (ih hnodup _ _).trans ?_
      by_cases hname : name = k
      · subst hname
        simp [lookup_of_notMem hk]
      · simp [Function.update_of_ne hname, List.lookup_cons, beq_false_of_ne hname]
  funext name
  show (if name ∈ names then storeAll slots b name else none) = b.lookup name
  by_cases hmem : name ∈ names
  · obtain ⟨⟨k, w⟩, hp, rfl⟩ := List.mem_map.mp (hperm.mem_iff.mpr hmem)
    have hsome : (b.lookup k).isSome = true := by
      rw [List.lookup_isSome_iff]
      exact ⟨_, hp, by simp⟩
    obtain ⟨w', hw'⟩ := Option.isSome_iff_exists.mp hsome
    simp [hmem, hstore, hw']
  · simp [hmem, lookup_of_notMem fun h => hmem (hperm.mem_iff.mp h)]

/-! ### The chain -/

/-- What the chain asks of a header. -/
def Header.Comparable (h : Header T σ) : Prop :=
  ∀ e, h.pattern = .value e → e.Comparable

section

variable {H : Heap T σ} {v : Val} {node : CompareExpr T σ}

/-- The tests of a header do what matching its pattern does. -/
theorem emitPatternTest_header {p : Pattern T σ} {guard : Option (Env → σ → Option (Bool × σ))}
    (hsub : SubjectType T node.subjectType)
    (hsuits : (Header.mk p guard).Suits node.subjectType)
    (hcomp : ∀ e, p = .value e → e.Comparable) :
    ∃ tests, emitPatternTest p .slot node.subjectType = some tests ∧
      ∀ {H : Heap T σ} {v : Val} (slots : Slots) (s : σ), HasType T H.typeAt v node.subjectType →
        match matchHeaderPattern H p v s with
        | none => runTests H v tests slots s = none
        | some (none, s') => ∃ slots', runTests H v tests slots s = some (false, slots', s')
        | some (some b, s') => runTests H v tests slots s = some (true, storeAll slots b, s') := by
  have hpattern : p.Suits node.subjectType →
      (∀ (H : Heap T σ) v s, matchHeaderPattern H p v s = (matchPattern H s p v).map (·, s)) →
      ∃ tests, emitPatternTest p .slot node.subjectType = some tests ∧
      ∀ {H : Heap T σ} {v : Val} (slots : Slots) (s : σ), HasType T H.typeAt v node.subjectType →
        match matchHeaderPattern H p v s with
        | none => runTests H v tests slots s = none
        | some (none, s') => ∃ slots', runTests H v tests slots s = some (false, slots', s')
        | some (some b, s') => runTests H v tests slots s = some (true, storeAll slots b, s') := by
    intro hp heq
    obtain ⟨tests, hemit, htests⟩ := emitPatternTest_agrees p (l := .slot) hp hsub.isType
    refine ⟨tests, hemit, fun {H} {v} slots s hv => ?_⟩
    have := htests (H := H) (v := v) (s := s) slots rfl hv
    rw [heq]
    match hm : matchPattern H s p v with
    | none => simpa [hm, Agrees] using this
    | some none => simpa [hm, Agrees] using this
    | some (some b) => simpa [hm, Agrees] using this
  cases p with
  | value e =>
    refine ⟨[valueTest e .slot node.subjectType], rfl, fun {H} {v} slots s hv => ?_⟩
    obtain ⟨hresolves, hcompat⟩ := hsuits
    have hrun := valueTest_run (H := H) (p := .slot) (s := s) slots rfl hsub hv.fits hresolves hcompat
      (hcomp e rfl)
    simp only [matchHeaderPattern, runTests, hrun]
    cases e.codegen.run s with
    | none => rfl
    | some r => cases hsame : v.sameAs r.1 <;> simp [hsame, storeAll]
  | binding name => exact absurd hsuits id
  | wildcard => exact hpattern hsuits fun _ _ _ => rfl
  | struct => exact hpattern hsuits fun _ _ _ => rfl
  | errorVariant => exact hpattern hsuits fun _ _ _ => rfl

/-- The headers of an arm. -/
theorem exists_emitHeaders (hsub : SubjectType T node.subjectType) {names : List String} :
    ∀ (headers : List (Header T σ)), (∀ h ∈ headers, h.Suits node.subjectType) →
      (∀ h ∈ headers, h.Comparable) →
      (∀ h ∈ headers, h.pattern.names.Nodup ∧ h.pattern.names.Perm names) →
      ∃ codes, headers.mapM node.emitHeader = some codes ∧
        ∀ {H : Heap T σ} {v : Val} (slots : Slots) (s : σ), HasType T H.typeAt v node.subjectType →
          runHeaders H v names codes slots s = tryHeaders H headers v s
  | [], _, _, _ => ⟨[], rfl, fun _ _ _ => rfl⟩
  | ⟨p, guard⟩ :: rest, hsuits, hcomp, hbinds => by
    obtain ⟨hsuit, hsuits⟩ := List.forall_mem_cons.mp hsuits
    obtain ⟨hc, hcomp⟩ := List.forall_mem_cons.mp hcomp
    obtain ⟨⟨hnodup, hperm⟩, hbinds⟩ := List.forall_mem_cons.mp hbinds
    obtain ⟨tests, hemit, htests⟩ := emitPatternTest_header hsub hsuit hc
    obtain ⟨codes, hcodes, hrest⟩ := exists_emitHeaders hsub rest hsuits hcomp hbinds
    refine ⟨⟨tests, guard⟩ :: codes, ?_, fun {H} {v} slots s hv => ?_⟩
    · simp [List.mapM_cons, CompareExpr.emitHeader, hemit, hcodes]
    · have h := htests (H := H) (v := v) slots s hv
      simp only [runHeaders, tryHeaders, tryHeader]
      rcases hm : matchHeaderPattern H p v s with _ | ⟨_ | b, s'⟩
      · simp only [hm] at h
        simp [h]
      · simp only [hm] at h
        obtain ⟨slots', h⟩ := h
        simp [h, hrest slots' s' hv]
      · simp only [hm] at h
        have henv : restrict names (storeAll slots b) = envOf b := by
          have hkeys := matchHeaderPattern_keys hm
          exact restrict_storeAll slots (hkeys ▸ hnodup) (hkeys ▸ hperm)
        cases guard with
        | none => simp [h, henv]
        | some g =>
          simp only [h, henv, Option.bind_eq_bind, Option.bind_some]
          cases hg : g (envOf b) s' with
          | none => simp
          | some r =>
            obtain ⟨holds, s''⟩ := r
            cases holds <;> simp [hrest _ s'' hv]

/-- The arms of the chain. -/
theorem exists_emitArms (hsub : SubjectType T node.subjectType) :
    ∀ (arms : List (MatchesArm T σ)), (∀ arm ∈ arms, ∀ h ∈ arm.headers, h.Suits node.subjectType) →
      (∀ arm ∈ arms, ∀ h ∈ arm.headers, h.Comparable) → (∀ arm ∈ arms, arm.Binds) →
      ∃ codes, arms.mapM node.emitArm = some codes ∧
        ∀ {H : Heap T σ} {v : Val} (hasOtherBody : Bool) (stale : Slots) (i : ℕ) (s : σ),
          HasType T H.typeAt v node.subjectType →
          runChain H v hasOtherBody stale i codes s = selectFrom H hasOtherBody i arms v s
  | [], _, _, _ => ⟨[], rfl, fun _ _ _ _ _ => rfl⟩
  | arm :: rest, hsuits, hcomp, hbinds => by
    obtain ⟨hsuit, hsuits⟩ := List.forall_mem_cons.mp hsuits
    obtain ⟨hc, hcomp⟩ := List.forall_mem_cons.mp hcomp
    obtain ⟨hb, hbinds⟩ := List.forall_mem_cons.mp hbinds
    obtain ⟨code, hcode, harm⟩ := exists_emitHeaders hsub arm.headers hsuit hc hb
    obtain ⟨codes, hcodes, hrest⟩ := exists_emitArms hsub rest hsuits hcomp hbinds
    refine ⟨⟨arm.bindings, code⟩ :: codes, ?_, fun {H} {v} hasOtherBody stale i s hv => ?_⟩
    · simp [List.mapM_cons, CompareExpr.emitArm, hcode, hcodes]
    · simp only [runChain, selectFrom, harm stale s hv]
      cases tryHeaders H arm.headers v s with
      | none => rfl
      | some r =>
        obtain ⟨m, s'⟩ := r
        cases m with
        | some env => rfl
        | none => exact hrest hasOtherBody stale (i + 1) s' hv

/-- The pattern chain runs the arm that the source selects. -/
theorem codegenPatterns_select (hsub : SubjectType T node.subjectType)
    (hsuits : ∀ arm ∈ node.arms, ∀ h ∈ arm.headers, h.Suits node.subjectType)
    (hcomp : ∀ arm ∈ node.arms, ∀ h ∈ arm.headers, h.Comparable)
    (hbinds : ∀ arm ∈ node.arms, arm.Binds) :
    ∃ code, node.codegenPatterns H = some code ∧ ∀ stale v s,
      HasType T H.typeAt v node.subjectType → code stale v s = node.select H v s := by
  obtain ⟨codes, hcodes, hrun⟩ := exists_emitArms hsub node.arms hsuits hcomp hbinds
  refine ⟨fun stale v s => runChain H v node.hasOtherBody stale 0 codes s, ?_,
    fun stale v s hv => hrun _ stale 0 s hv⟩
  simp [CompareExpr.codegenPatterns, hcodes]

end

end Compare

end TurfLang
