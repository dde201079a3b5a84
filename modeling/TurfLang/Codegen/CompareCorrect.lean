import TurfLang.Codegen.CompareChain

/-!
# Which arm the code of a compare runs

The `switch` runs the arm that the source selects exactly when every header is an integer constant,
no two are the same number at 64 bits, and no char has its top bit set, as the case of such a char
is sign-extended and the subject is not. The `strcmp` chain does so exactly when the headers that
it evaluates after a match do nothing. The pattern chain does so whenever the values of its headers
are compared as what they are.
-/

namespace TurfLang

namespace Compare

variable {T : TypeTable} {σ : Type}

/-- A constant is a value of the type that the checks find. -/
theorem ValueExpr.fits_const [Nonempty σ] {e : ValueExpr T σ} {w : Val}
    (hresolves : e.resolves = true) (h : e.codegen = .const w) : (T.kind e.type).Fits w :=
  ValueExpr.fits hresolves (s := Classical.arbitrary σ) (by rw [h]; rfl)

namespace CompareExpr

variable {node : CompareExpr T σ} {H : Heap T σ}

/-! ### Plain compares -/

/-- An arm with value headers and no guard. -/
def IsPlain (arm : MatchesArm T σ) : Prop :=
  ∀ h ∈ arm.headers, h.guard = none ∧ ∃ e, h.pattern = .value e

theorem isPlain_of_not_needsPatternCodegen (h : node.needsPatternCodegen = false) :
    ∀ arm ∈ node.arms, IsPlain arm := by
  intro arm harm h' hmem
  have harm' := Bool.eq_false_iff.mpr (List.any_eq_false.mp h arm harm)
  have hh := List.any_eq_false.mp harm' h' hmem
  simp only [Bool.or_eq_true, not_or, Option.not_isSome_iff_eq_none] at hh
  refine ⟨hh.1, ?_⟩
  cases hp : h'.pattern with
  | value e => exact ⟨e, rfl⟩
  | _ => simp [hp] at hh

/-- The search through the headers of a plain arm: the ones after the first that is equal. -/
def firstEqual (v : Val) : List (ValueExpr T σ) → σ → Option (Option (List (ValueExpr T σ)) × σ)
  | [], s => some (none, s)
  | e :: rest, s => do
    let (w, s') ← e.codegen.run s
    if v.sameAs w then return (some rest, s') else firstEqual v rest s'

theorem mem_values {arm : MatchesArm T σ} {e : ValueExpr T σ} :
    e ∈ values arm ↔ ∃ h ∈ arm.headers, h.pattern = .value e := by
  simp only [values, List.mem_filterMap]
  refine ⟨fun ⟨h, hmem, he⟩ => ⟨h, hmem, ?_⟩, fun ⟨h, hmem, he⟩ => ⟨h, hmem, by simp [he]⟩⟩
  cases hp : h.pattern <;> simp_all

theorem tryHeaders_of_isPlain {v : Val} {headers : List (Header T σ)}
    (hplain : IsPlain ⟨headers⟩) (s : σ) :
    tryHeaders H headers v s =
      (firstEqual v (values ⟨headers⟩) s).map fun r => (r.1.map fun _ => noBindings, r.2) := by
  induction headers generalizing s with
  | nil => rfl
  | cons h rest ih =>
    obtain ⟨⟨hguard, e, he⟩, hrest⟩ := List.forall_mem_cons.mp hplain
    have hvalues : values ⟨h :: rest⟩ = e :: values ⟨rest⟩ := by simp [values, he]
    simp only [tryHeaders, tryHeader, he, hguard, matchHeaderPattern, hvalues, firstEqual]
    cases e.codegen.run s with
    | none => rfl
    | some r =>
      obtain ⟨w, s'⟩ := r
      cases hsame : v.sameAs w with
      | true => simp [hsame]; rfl
      | false => simpa [hsame] using ih hrest s'

/-! ### The `switch` -/

/-- A char with its top bit set, as a constant. -/
def IsHighChar (e : ValueExpr T σ) : Prop := ∃ c, e.codegen = .const (.i8 c) ∧ 128 ≤ c.toNat

theorem signExtend_of_lt {c : BitVec 8} (h : c.toNat < 128) : c.signExtend 64 = c.setWidth 64 := by
  rw [BitVec.signExtend_eq_setWidth_of_msb_false]
  rw [BitVec.msb_eq_decide]
  simpa using h

/-- A constant that is no such char is a case with the number that it is. -/
theorem isInt_of_caseValue {e : ValueExpr T σ} {bits : BitVec 64}
    (h : caseValue e.codegen = some bits) (hhigh : ¬ IsHighChar e) :
    ∃ w, e.codegen = .const w ∧ IsInt w bits := by
  cases hcode : e.codegen with
  | code run => rw [hcode] at h; cases h
  | const w =>
    rw [hcode] at h
    refine ⟨w, rfl, ?_⟩
    cases w with
    | i64 => cases h; exact isInt_i64 _
    | i32 => cases h; exact isInt_i32 _
    | i1 => cases h; exact isInt_i1 _
    | i8 c =>
      have hlow : c.toNat < 128 := not_le.mp fun hc => hhigh ⟨c, hcode, hc⟩
      cases h
      rw [signExtend_of_lt hlow]
      exact isInt_i8 c
    | _ => cases h

theorem firstEqual_of_constants {v : Val} {a : BitVec 64} (hv : IsInt v a) (s : σ) :
    ∀ {es : List (ValueExpr T σ)} {cs : List (BitVec 64)},
      (es.mapM fun e => caseValue e.codegen) = some cs → (∀ e ∈ es, ¬ IsHighChar e) →
      ∃ m, firstEqual v es s = some (m, s) ∧ (m.isSome = true ↔ a ∈ cs)
  | [], _, h, _ => by
    cases h
    exact ⟨none, rfl, by simp⟩
  | e :: rest, _, h, hhigh => by
    obtain ⟨hhe, hhigh⟩ := List.forall_mem_cons.mp hhigh
    simp only [List.mapM_cons, bind, Option.bind_eq_some_iff, pure, Option.some.injEq] at h
    obtain ⟨c, hc, cs, hcs, rfl⟩ := h
    obtain ⟨w, hw, hint⟩ := isInt_of_caseValue hc hhe
    obtain ⟨m, hm, hiff⟩ := firstEqual_of_constants hv s hcs hhigh
    simp only [firstEqual, hw, Lowered.run, Option.bind_eq_bind, Option.bind_some,
      sameAs_of_isInt hv hint]
    by_cases hac : a = c
    · exact ⟨some rest, by simp [hac], by simp [hac]⟩
    · exact ⟨m, by simp [hac, hm], by simp [hac, hiff]⟩

/-- The headers of all arms, in order. -/
def allValues (arms : List (MatchesArm T σ)) : List (ValueExpr T σ) := arms.flatMap values

theorem map_of_mapM {es : List (ValueExpr T σ)} {cs : List (BitVec 64)}
    (h : (es.mapM fun e => caseValue e.codegen) = some cs) :
    es.map (fun e => caseValue e.codegen) = cs.map some := by
  induction es generalizing cs with
  | nil =>
    cases h
    rfl
  | cons e es ih =>
    simp only [List.mapM_cons, bind, Option.bind_eq_some_iff, pure, Option.some.injEq] at h
    obtain ⟨c, hc, cs', hcs', rfl⟩ := h
    simp [hc, ih hcs']

/-- The cases are the constants of the headers, in order. -/
theorem addCases_eq_some : ∀ {arms : List (MatchesArm T σ)} {i : ℕ} {cases : List (BitVec 64 × ℕ)},
    addCases i arms = some cases →
    (allValues arms).map (fun e => caseValue e.codegen) = cases.map fun c => some c.1
  | [], _, _, h => by
    cases h
    rfl
  | arm :: rest, i, _, h => by
    simp only [addCases, bind, Option.bind_eq_some_iff, pure, Option.some.injEq] at h
    obtain ⟨cs, hcs, later, hlater, rfl⟩ := h
    have hmap := map_of_mapM hcs
    have hrest := addCases_eq_some hlater
    simp only [allValues, List.flatMap_cons, List.map_append, hmap] at hrest ⊢
    rw [hrest]
    simp

theorem exists_mapM_of_isSome {es : List (ValueExpr T σ)}
    (h : ∀ e ∈ es, (caseValue e.codegen).isSome = true) :
    ∃ cs, (es.mapM fun e => caseValue e.codegen) = some cs := by
  induction es with
  | nil => exact ⟨[], rfl⟩
  | cons e es ih =>
    obtain ⟨he, hes⟩ := List.forall_mem_cons.mp h
    obtain ⟨c, hc⟩ := Option.isSome_iff_exists.mp he
    obtain ⟨cs, hcs⟩ := ih hes
    exact ⟨c :: cs, by simp [hc, hcs]⟩

theorem exists_addCases : ∀ {arms : List (MatchesArm T σ)} (i : ℕ),
    (∀ e ∈ allValues arms, (caseValue e.codegen).isSome = true) → ∃ cases, addCases i arms = some cases
  | [], _, _ => ⟨[], rfl⟩
  | arm :: rest, i, h => by
    obtain ⟨cs, hcs⟩ := exists_mapM_of_isSome fun e he => h e (List.mem_append_left _ he)
    obtain ⟨later, hlater⟩ := exists_addCases (i + 1) fun e he => h e (List.mem_append_right _ he)
    exact ⟨cs.map (·, i) ++ later, by simp [addCases, hcs, hlater]⟩

theorem lookup_cases {cs : List (BitVec 64)} {i : ℕ} {later : List (BitVec 64 × ℕ)} {a : BitVec 64} :
    (cs.map (·, i) ++ later).lookup a = if a ∈ cs then some i else later.lookup a := by
  induction cs with
  | nil => rfl
  | cons c cs ih =>
    by_cases hac : a = c
    · simp [hac]
    · simp [List.lookup_cons, beq_false_of_ne hac, hac, ih]

/-- Where the `switch` goes. -/
def target (hasOtherBody : Bool) : Option ℕ → Choice
  | some i => .arm i noBindings
  | none => if hasOtherBody then .otherBody else .noArm

/-- With no char's top bit set, the search finds the arm of the case. -/
theorem selectFrom_of_constants {v : Val} {a : BitVec 64} {hasOtherBody : Bool} (hv : IsInt v a)
    (s : σ) : ∀ {arms : List (MatchesArm T σ)} {i : ℕ} {cases : List (BitVec 64 × ℕ)},
      (∀ arm ∈ arms, IsPlain arm) → addCases i arms = some cases →
      (∀ e ∈ allValues arms, ¬ IsHighChar e) →
      selectFrom H hasOtherBody i arms v s = some (target hasOtherBody (cases.lookup a), s)
  | [], _, _, _, h, _ => by
    cases h
    rfl
  | arm :: rest, i, _, hplain, h, hhigh => by
    obtain ⟨hp, hplain⟩ := List.forall_mem_cons.mp hplain
    simp only [addCases, bind, Option.bind_eq_some_iff, pure, Option.some.injEq] at h
    obtain ⟨cs, hcs, later, hlater, rfl⟩ := h
    obtain ⟨m, hm, hiff⟩ := firstEqual_of_constants hv s hcs
      fun e he => hhigh e (List.mem_append_left _ he)
    have hrest : selectFrom H hasOtherBody (i + 1) rest v s = _ :=
      selectFrom_of_constants hv s hplain hlater fun e he => hhigh e (List.mem_append_right _ he)
    simp only [selectFrom, tryHeaders_of_isPlain hp, hm, lookup_cases]
    cases m with
    | none =>
      have hmem : a ∉ cs := fun h => by simpa using hiff.mpr h
      simpa [hmem] using hrest
    | some l =>
      have hmem : a ∈ cs := hiff.mp rfl
      simp [hmem, target]

/-! ### The cases -/

/-- What the `switch` asks of its headers: constants, and no number twice. -/
def SwitchConstants (node : CompareExpr T σ) : Prop :=
  (∀ e ∈ allValues node.arms, (caseValue e.codegen).isSome = true) ∧
    ((allValues node.arms).map fun e => caseValue e.codegen).Nodup

theorem nodup_cases {cases : List (BitVec 64 × ℕ)} {es : List (ValueExpr T σ)}
    (h : es.map (fun e => caseValue e.codegen) = cases.map fun c => some c.1) :
    (es.map fun e => caseValue e.codegen).Nodup ↔ (cases.map Prod.fst).Nodup := by
  have hsome : cases.map (fun c => some c.1) = (cases.map Prod.fst).map some := by simp
  rw [h, hsome, List.nodup_map_iff (Option.some_injective _)]

theorem codegenSwitch_eq_some {code : Code σ} (h : node.codegenSwitch = some code) :
    ∃ cases, addCases 0 node.arms = some cases ∧ node.SwitchConstants ∧
      code = fun _ v s => runSwitch cases node.hasOtherBody v s := by
  simp only [codegenSwitch, bind, Option.bind_eq_some_iff, Option.ite_none_right_eq_some] at h
  obtain ⟨cases, hcases, hnodup, hcode⟩ := h
  have hmap := addCases_eq_some hcases
  refine ⟨cases, hcases, ⟨fun e he => ?_, (nodup_cases hmap).mpr hnodup⟩, by cases hcode; rfl⟩
  have hmem : caseValue e.codegen ∈ cases.map fun c => some c.1 := hmap ▸ List.mem_map_of_mem he
  obtain ⟨c, -, hc⟩ := List.mem_map.mp hmem
  rw [← hc]
  rfl

/-- The `switch` is accepted exactly when its headers are different constants. -/
theorem isSome_codegenSwitch : node.codegenSwitch.isSome = true ↔ node.SwitchConstants := by
  refine ⟨fun h => ?_, fun ⟨hconst, hnodup⟩ => ?_⟩
  · obtain ⟨code, hcode⟩ := Option.isSome_iff_exists.mp h
    exact (codegenSwitch_eq_some hcode).choose_spec.2.1
  · obtain ⟨cases, hcases⟩ := exists_addCases 0 hconst
    simp [codegenSwitch, hcases, (nodup_cases (addCases_eq_some hcases)).mp hnodup]

/-- The subjects that a case constant fits are integers. -/
theorem isInteger_of_fits {k : Kind} {w : Val} (hsubject : k.isSubject = true) (h : k.Fits w)
    (hcase : (caseValue (.const w : Lowered σ)).isSome = true) : k.isInteger = true := by
  cases k <;> first
    | rfl
    | (cases hsubject; done)
    | cases w <;> first | (cases h; done) | cases hcase

/-- A header with a case constant, and the subject it is compared with. -/
theorem isInteger_of_caseValue [Nonempty σ] {e : ValueExpr T σ}
    (hsub : SubjectType T node.subjectType) (hresolves : e.resolves = true)
    (hcompat : node.subjectType.typesCompatible e.type = true)
    (hcase : (caseValue e.codegen).isSome = true) :
    (T.kind node.subjectType).isInteger = true ∧ (T.kind e.type).isInteger = true := by
  obtain ⟨w, hcode⟩ : ∃ w, e.codegen = .const w := by
    cases hcode : e.codegen with
    | code run =>
      rw [hcode] at hcase
      cases hcase
    | const w => exact ⟨w, rfl⟩
  have hfits := ValueExpr.fits_const hresolves hcode
  rw [hcode] at hcase
  have hdouble : T.kind e.type ≠ .double := fun hk => by
    rw [hk] at hfits
    cases w <;> first | (cases hfits; done) | cases hcase
  obtain hkind | ⟨hkind, hk⟩ | ⟨hkind, hk | hk⟩ :=
    hsub.kind_of_compatible (ValueExpr.isType hresolves) hcompat
  · have h := isInteger_of_fits hsub.isSubject (hkind ▸ hfits) hcase
    exact ⟨h, hkind ▸ h⟩
  · exact absurd hk hdouble
  · rw [hkind, hk]
    exact ⟨rfl, rfl⟩
  · exact absurd hk hdouble

/-- A case of a char subject is a char. -/
theorem exists_char_of_caseValue [Nonempty σ] {e : ValueExpr T σ}
    (hsub : SubjectType T node.subjectType) (hresolves : e.resolves = true)
    (hcompat : node.subjectType.typesCompatible e.type = true)
    (hchar : T.kind node.subjectType = .char) (hcase : (caseValue e.codegen).isSome = true) :
    ∃ c, e.codegen = .const (.i8 c) := by
  have hkind : T.kind e.type = .char := by
    simpa [hchar] using hsub.kind_of_compatible (ValueExpr.isType hresolves) hcompat
  cases hcode : e.codegen with
  | code run =>
    rw [hcode] at hcase
    cases hcase
  | const w =>
    have hfits := ValueExpr.fits_const hresolves hcode
    rw [hkind] at hfits
    cases w <;> first | (cases hfits; done) | exact ⟨_, rfl⟩

/-- A char is a header of char subjects only. -/
theorem kind_of_char [Nonempty σ] {e : ValueExpr T σ} {c : BitVec 8}
    (hsub : SubjectType T node.subjectType) (hresolves : e.resolves = true)
    (hcompat : node.subjectType.typesCompatible e.type = true)
    (hcode : e.codegen = .const (.i8 c)) : T.kind node.subjectType = .char := by
  have hfits := ValueExpr.fits_const hresolves hcode
  have hsubject := hsub.isSubject
  obtain hkind | ⟨-, hk⟩ | ⟨-, hk | hk⟩ :=
    hsub.kind_of_compatible (ValueExpr.isType hresolves) hcompat
  · rw [hkind] at hfits
    cases hk : T.kind node.subjectType <;> rw [hk] at hfits hsubject <;>
      first | rfl | (cases hfits; done) | cases hsubject
  all_goals
    rw [hk] at hfits
    cases hfits

/-- Sign extension takes a char with its top bit set away from every char that is zero-extended,
and no other char to one. -/
theorem setWidth_ne_signExtend {c c' : BitVec 8} (h : 128 ≤ c.toNat) :
    c.setWidth 64 ≠ c'.signExtend 64 := by
  intro heq
  have hc := c.isLt
  have hc' := c'.isLt
  have hnat : c.toNat = c'.toNat + if c'.msb then 2 ^ 64 - 2 ^ 8 else 0 := by
    have := congrArg BitVec.toNat heq
    rw [BitVec.toNat_signExtend, BitVec.toNat_setWidth, BitVec.toNat_setWidth,
      Nat.mod_eq_of_lt (by omega), Nat.mod_eq_of_lt (by omega)] at this
    exact this
  have hmsb : c'.msb = decide (128 ≤ c'.toNat) := by simp [BitVec.msb_eq_decide]
  split at hnat
  · omega
  · have hlow : c'.toNat < 128 := by simpa [hmsb] using ‹¬ c'.msb = true›
    omega

theorem suits_of_mem_allValues {e : ValueExpr T σ}
    (hsuits : ∀ arm ∈ node.arms, ∀ h ∈ arm.headers, h.Suits node.subjectType)
    (he : e ∈ allValues node.arms) :
    e.resolves = true ∧ node.subjectType.typesCompatible e.type = true := by
  obtain ⟨arm, harm, he⟩ := List.mem_flatMap.mp he
  obtain ⟨h, hmem, hpattern⟩ := mem_values.mp he
  have hsuit := hsuits arm harm h hmem
  simpa only [Header.Suits, hpattern] using hsuit

/-- With no char's top bit set, the `switch` runs the arm that the source selects. -/
theorem codegenSwitch_select [Nonempty σ] {code : Code σ}
    (hsub : SubjectType T node.subjectType)
    (hsuits : ∀ arm ∈ node.arms, ∀ h ∈ arm.headers, h.Suits node.subjectType)
    (hplain : ∀ arm ∈ node.arms, IsPlain arm)
    (hvalues : allValues node.arms ≠ []) (hcode : node.codegenSwitch = some code)
    (hhigh : ∀ e ∈ allValues node.arms, ¬ IsHighChar e) (stale : Slots) {v : Val} (s : σ)
    (hv : HasType T H.typeAt v node.subjectType) : code stale v s = node.select H v s := by
  obtain ⟨cases, hcases, ⟨hconst, -⟩, rfl⟩ := codegenSwitch_eq_some hcode
  obtain ⟨e, he⟩ := List.exists_mem_of_ne_nil _ hvalues
  obtain ⟨hresolves, hcompat⟩ := suits_of_mem_allValues hsuits he
  have hint := (isInteger_of_caseValue hsub hresolves hcompat (hconst e he)).1
  obtain ⟨a, ha⟩ := exists_isInt hint hv.fits
  have hselect : node.select H v s = some (target node.hasOtherBody (cases.lookup a), s) :=
    selectFrom_of_constants ha s hplain hcases hhigh
  rw [hselect]
  simp only [runSwitch, ha.1, Option.bind_eq_bind, Option.bind_some]
  cases cases.lookup a <;> rfl

/-- No case of a `switch` over chars is a zero-extended char with its top bit set. -/
theorem lookup_of_highChar {cases : List (BitVec 64 × ℕ)} {es : List (ValueExpr T σ)} {c : BitVec 8}
    (hcases : es.map (fun e => caseValue e.codegen) = cases.map fun c => some c.1)
    (hchars : ∀ e ∈ es, ∃ c, e.codegen = .const (.i8 c)) (hc : 128 ≤ c.toNat) :
    cases.lookup (c.setWidth 64) = none := by
  rw [List.lookup_eq_none_iff]
  intro p hp
  have hmem : some p.1 ∈ es.map fun e => caseValue e.codegen :=
    hcases ▸ List.mem_map_of_mem (f := fun c => some c.1) hp
  obtain ⟨e, he, hcase⟩ := List.mem_map.mp hmem
  obtain ⟨c', hc'⟩ := hchars e he
  have heq : c'.signExtend 64 = p.1 := by
    rw [hc'] at hcase
    exact Option.some.inj hcase
  simpa [← heq] using setWidth_ne_signExtend hc

/-- The byte of a char header with its top bit set goes to the default of the `switch`. -/
theorem runSwitch_of_isHighChar [Nonempty σ] {code : Code σ}
    (hsub : SubjectType T node.subjectType)
    (hsuits : ∀ arm ∈ node.arms, ∀ h ∈ arm.headers, h.Suits node.subjectType)
    (hplain : ∀ arm ∈ node.arms, IsPlain arm)
    (hcode : node.codegenSwitch = some code) {e : ValueExpr T σ} (he : e ∈ allValues node.arms)
    (hhigh : IsHighChar e) (stale : Slots) (s : σ) :
    ∃ v, HasType T H.typeAt v node.subjectType ∧
      (code stale v s).map Prod.fst ≠ (node.select H v s).map Prod.fst := by
  obtain ⟨cases, hcases, ⟨hconst, -⟩, rfl⟩ := codegenSwitch_eq_some hcode
  obtain ⟨c, hec, hc⟩ := hhigh
  obtain ⟨hresolves, hcompat⟩ := suits_of_mem_allValues hsuits he
  have hchar := kind_of_char hsub hresolves hcompat hec
  have hlookup := lookup_of_highChar (addCases_eq_some hcases) (fun e' he' => by
    obtain ⟨hresolves', hcompat'⟩ := suits_of_mem_allValues hsuits he'
    exact exists_char_of_caseValue hsub hresolves' hcompat' hchar (hconst e' he')) hc
  refine ⟨.i8 c, .char hchar, fun heq => ?_⟩
  simp only [runSwitch, castToInt, Option.bind_eq_bind, Option.bind_some, hlookup] at heq
  obtain ⟨⟨choice, s'⟩, hselect, hchoice⟩ := Option.map_eq_some_iff.mp heq.symm
  obtain ⟨arm, harm, he⟩ := List.mem_flatMap.mp he
  obtain ⟨h, hmem, hpattern⟩ := mem_values.mp he
  have htakes : Takes H h (.i8 c) :=
    takes_of_value (hplain arm harm h hmem).1 hpattern hec (by simp [Val.sameAs, Val.number])
  obtain ⟨j, env, rfl⟩ := exists_arm_of_takes htakes _ _ _ _ _ ⟨arm, harm, hmem⟩ hselect
  cases hother : node.hasOtherBody <;> simp [hother] at hchoice

/-! ### The `strcmp` chain -/

/-- The headers after the one that is found, in its arm. -/
def laterHeaders (v : Val) : List (MatchesArm T σ) → σ → Option (List (ValueExpr T σ) × σ)
  | [], s => some ([], s)
  | arm :: rest, s => do
    match ← firstEqual v (values arm) s with
    | (some later, s') => return (later, s')
    | (none, s') => laterHeaders v rest s'

/-- Headers evaluated one after another, their values dropped. -/
def evaluateAll : List (ValueExpr T σ) → σ → Option σ
  | [], s => some s
  | e :: rest, s => do
    let (_, s') ← e.codegen.run s
    evaluateAll rest s'

/-- Headers whose values are strings. -/
def AreStrings (es : List (ValueExpr T σ)) : Prop :=
  ∀ e ∈ es, ∀ s w s', e.codegen.run s = some (w, s') → ∃ b, w = .str b

theorem map_snd_anyMatch (a : CString) : ∀ {es : List (ValueExpr T σ)}, AreStrings es → ∀ s,
    (anyMatch a (es.map (·.codegen)) s).map Prod.snd = evaluateAll es s
  | [], _, _ => rfl
  | e :: rest, hstr, s => by
    obtain ⟨he, hrest⟩ := List.forall_mem_cons.mp hstr
    simp only [List.map_cons, anyMatch, evaluateAll]
    cases hrun : e.codegen.run s with
    | none => rfl
    | some r =>
      obtain ⟨w, s'⟩ := r
      obtain ⟨b, rfl⟩ := he s w s' hrun
      simp only [Option.bind_eq_bind, Option.bind_some, ← map_snd_anyMatch a hrest s']
      cases anyMatch a (rest.map (·.codegen)) s' <;> rfl

/-- The headers of an arm, all evaluated: the search, and then what comes after a match. -/
theorem anyMatch_eq (a : CString) : ∀ {es : List (ValueExpr T σ)}, AreStrings es → ∀ s,
    anyMatch a (es.map (·.codegen)) s = (do
      match ← firstEqual (.str a) es s with
      | (some later, s') => return (true, ← evaluateAll later s')
      | (none, s') => return (false, s'))
  | [], _, s => rfl
  | e :: rest, hstr, s => by
    obtain ⟨he, hrest⟩ := List.forall_mem_cons.mp hstr
    simp only [List.map_cons, anyMatch, firstEqual]
    cases hrun : e.codegen.run s with
    | none => rfl
    | some r =>
      obtain ⟨w, s'⟩ := r
      obtain ⟨b, rfl⟩ := he s w s' hrun
      have hcmp := strcmp_eq_zero a.2 b.2
      by_cases hab : a = b
      · -- the arm is found, and the rest is still evaluated
        have hzero : strcmp a b = 0 := hcmp.mpr (congrArg Subtype.val hab)
        have hsame : (Val.str a).sameAs (.str b) = true := by simp [Val.sameAs, hab]
        have hrest' := map_snd_anyMatch a hrest s'
        simp only [Option.bind_eq_bind, Option.bind_some, hzero, hsame, decide_true, Bool.true_or,
          if_true, Option.pure_def, ← hrest']
        cases anyMatch a (rest.map (·.codegen)) s' <;> rfl
      · have hzero : ¬ strcmp a b = 0 := fun h => hab (Subtype.ext (hcmp.mp h))
        have hsame : (Val.str a).sameAs (.str b) = false := by simp [Val.sameAs, hab]
        simpa [hzero, hsame] using anyMatch_eq a hrest s'

/-- The chain of a string: what the source selects, and then the headers after it in its arm. -/
theorem runStrings_eq (a : CString) (hasOtherBody : Bool) : ∀ {arms : List (MatchesArm T σ)} (i : ℕ),
    (∀ arm ∈ arms, IsPlain arm) → AreStrings (allValues arms) → ∀ s,
    runStrings hasOtherBody a i arms s = (do
      let (choice, _) ← selectFrom H hasOtherBody i arms (.str a) s
      let (later, s') ← laterHeaders (.str a) arms s
      return (choice, ← evaluateAll later s'))
  | [], _, _, _, s => rfl
  | arm :: rest, i, hplain, hstr, s => by
    obtain ⟨hp, hplain⟩ := List.forall_mem_cons.mp hplain
    have harm : AreStrings (values arm) := fun e he => hstr e (List.mem_append_left _ he)
    have hrest : AreStrings (allValues rest) := fun e he => hstr e (List.mem_append_right _ he)
    simp only [runStrings, selectFrom, laterHeaders, anyMatch_eq a harm, tryHeaders_of_isPlain hp]
    cases firstEqual (.str a) (values arm) s with
    | none => rfl
    | some r =>
      obtain ⟨m, s'⟩ := r
      cases m with
      | none => simpa using runStrings_eq a hasOtherBody (i + 1) hplain hrest s'
      | some later =>
        cases hlater : evaluateAll later s' <;> simp [hlater]

/-- The search ends in one state, whatever is asked of it. -/
theorem map_snd_selectFrom {v : Val} (hasOtherBody : Bool) : ∀ {arms : List (MatchesArm T σ)} (i : ℕ),
    (∀ arm ∈ arms, IsPlain arm) → ∀ s,
    (selectFrom H hasOtherBody i arms v s).map Prod.snd = (laterHeaders v arms s).map Prod.snd
  | [], _, _, _ => rfl
  | arm :: rest, i, hplain, s => by
    obtain ⟨hp, hplain⟩ := List.forall_mem_cons.mp hplain
    simp only [selectFrom, laterHeaders, tryHeaders_of_isPlain hp]
    cases firstEqual v (values arm) s with
    | none => rfl
    | some r =>
      obtain ⟨m, s'⟩ := r
      cases m with
      | none => simpa using map_snd_selectFrom hasOtherBody (i + 1) hplain s'
      | some later => rfl

/-! ### The arm that runs -/

/-- Code runs the arm that the source selects. -/
def Runs (H : Heap T σ) (node : CompareExpr T σ) (code : Code σ) : Prop :=
  ∀ stale v s, HasType T H.typeAt v node.subjectType →
    (code stale v s).map Prod.fst = (node.select H v s).map Prod.fst

/-- After the header of an arm that a string equals, the others of the arm return. -/
def LaterReturn (node : CompareExpr T σ) : Prop :=
  ∀ (a : CString) s later s', laterHeaders (.str a) node.arms s = some (later, s') →
    (evaluateAll later s').isSome = true

theorem kind_of_getName (hsub : SubjectType T node.subjectType)
    (hname : node.subjectType.getName = "string") : T.kind node.subjectType = .string := by
  rw [← T.kind_congr _ _ hsub.isType T.isType_string hname hsub.isSubject, T.kind_string]

theorem areStrings (hsub : SubjectType T node.subjectType)
    (hsuits : ∀ arm ∈ node.arms, ∀ h ∈ arm.headers, h.Suits node.subjectType)
    (hstring : T.kind node.subjectType = .string) :
    ∀ e ∈ allValues node.arms, T.kind e.type = .string := by
  intro e he
  obtain ⟨hresolves, hcompat⟩ := suits_of_mem_allValues hsuits he
  simpa [hstring] using hsub.kind_of_compatible (ValueExpr.isType hresolves) hcompat

/-- The `strcmp` chain runs the arm that the source selects exactly when the headers after the one
that is found return. -/
theorem codegenStrings_runs (hsub : SubjectType T node.subjectType)
    (hsuits : ∀ arm ∈ node.arms, ∀ h ∈ arm.headers, h.Suits node.subjectType)
    (hplain : ∀ arm ∈ node.arms, IsPlain arm) (hname : node.subjectType.getName = "string") :
    Runs H node node.codegenStrings ↔ node.LaterReturn := by
  have hstring := kind_of_getName hsub hname
  have hstr : AreStrings (allValues node.arms) := fun e he s w s' hrun =>
    exists_str (areStrings hsub hsuits hstring e he)
      (ValueExpr.fits (suits_of_mem_allValues hsuits he).1 hrun)
  have hrun : ∀ (a : CString) s,
      (runStrings node.hasOtherBody a 0 node.arms s).map Prod.fst =
          (node.select H (.str a) s).map Prod.fst ↔
        ∀ later s', laterHeaders (.str a) node.arms s = some (later, s') →
          (evaluateAll later s').isSome = true := by
    intro a s
    have hsnd := map_snd_selectFrom (H := H) (v := .str a) node.hasOtherBody 0 hplain s
    rw [runStrings_eq (H := H) a node.hasOtherBody 0 hplain hstr s, select]
    cases hselect : selectFrom H node.hasOtherBody 0 node.arms (.str a) s with
    | none =>
      rw [hselect] at hsnd
      have hnone : laterHeaders (.str a) node.arms s = none := by simpa using hsnd.symm
      simp [hnone]
    | some r =>
      cases hlater : laterHeaders (.str a) node.arms s with
      | none =>
        rw [hselect, hlater] at hsnd
        cases hsnd
      | some l =>
        obtain ⟨later, s'⟩ := l
        cases heval : evaluateAll later s' <;> simp [heval]
  refine ⟨fun h a s => (hrun a s).mp (h (fun _ => none) (.str a) s (.string hstring)),
    fun h stale v s hv => ?_⟩
  obtain ⟨a, rfl⟩ := exists_str hstring hv.fits
  exact (hrun a s).mpr (h a s)

/-- A compare that the parser, the Resolver and the checker let through. -/
structure Accepted (node : CompareExpr T σ) : Prop where
  subject : SubjectType T node.subjectType
  headers : ∀ arm ∈ node.arms, arm.headers ≠ []
  resolves : ∀ arm ∈ node.arms, arm.resolve = .ok ()
  checks : ∃ b, node.visitCompare = .ok b

theorem Accepted.suits (h : node.Accepted) :
    ∀ arm ∈ node.arms, ∀ h ∈ arm.headers, h.Suits node.subjectType := by
  obtain ⟨b, hb⟩ := h.checks
  obtain ⟨facts, hfacts, -⟩ := visitCompare_eq_ok hb
  exact (checkArms_eq_ok h.subject.ne_pointer hfacts).1

theorem Accepted.allValues_ne_nil (h : node.Accepted) (hplain : ∀ arm ∈ node.arms, IsPlain arm)
    (harms : node.arms ≠ []) : allValues node.arms ≠ [] := by
  obtain ⟨arm, harm⟩ := List.exists_mem_of_ne_nil _ harms
  obtain ⟨hd, hmem⟩ := List.exists_mem_of_ne_nil _ (h.headers arm harm)
  obtain ⟨-, e, he⟩ := hplain arm harm hd hmem
  have : e ∈ allValues node.arms := List.mem_flatMap.mpr ⟨arm, harm, mem_values.mpr ⟨hd, hmem, he⟩⟩
  exact List.ne_nil_of_mem this

/-- Every lowering that applies runs the arm that the source selects, and some arm's body runs when
the compare is recorded as exhaustive. -/
structure FirstMatch (H : Heap T σ) (node : CompareExpr T σ) : Prop where
  runs : ∀ code, node.codegen H = some code → Runs H node code
  chain : ∀ code, node.codegen H = some code →
    ∃ chain, node.codegenPatterns H = some chain ∧ Runs H node chain
  exhaustive : node.visitCompare = .ok true → ∀ code, node.codegen H = some code →
    ∀ stale v s s', HasType T H.typeAt v node.subjectType → code stale v s ≠ some (.noArm, s')

/-- When it does: the chain compares its headers as what they are, the headers of a string return
after a match, and no case of a `switch` is a char with its top bit set. -/
def Lowers (node : CompareExpr T σ) : Prop :=
  if node.needsPatternCodegen = true then ∀ arm ∈ node.arms, ∀ h ∈ arm.headers, h.Comparable
  else if node.subjectType.getName = "string" then node.LaterReturn
  else node.SwitchConstants → ∀ e ∈ allValues node.arms, ¬ IsHighChar e

theorem Accepted.chain (h : node.Accepted)
    (hcomp : ∀ arm ∈ node.arms, ∀ h ∈ arm.headers, h.Comparable) :
    ∃ chain, node.codegenPatterns H = some chain ∧ Runs H node chain := by
  obtain ⟨chain, hchain, hruns⟩ := codegenPatterns_select (H := H) h.subject h.suits hcomp
    fun arm harm => MatchesArm.binds_of_resolve (h.resolves arm harm)
  exact ⟨chain, hchain, fun stale v s hv => by rw [hruns stale v s hv]⟩

/-- Code that runs the selected arm leaves no value of an exhaustive compare without one. -/
theorem Accepted.firstMatch (h : node.Accepted) (hruns : ∀ code, node.codegen H = some code →
      Runs H node code ∧ ∀ arm ∈ node.arms, ∀ h ∈ arm.headers, h.Comparable) :
    FirstMatch H node where
  runs code hcode := (hruns code hcode).1
  chain code hcode := h.chain (hruns code hcode).2
  exhaustive hcheck code hcode stale v s s' hv hnone := by
    have heq := (hruns code hcode).1 stale v s hv
    rw [hnone] at heq
    obtain ⟨⟨choice, s''⟩, hselect, rfl⟩ := Option.map_eq_some_iff.mp heq.symm
    exact select_of_exhaustive h.subject hcheck hv s s'' hselect

/-- The expressions among the headers are the values. -/
theorem comparable_of_allValues
    (h : ∀ e ∈ allValues node.arms, e.Comparable) :
    ∀ arm ∈ node.arms, ∀ h ∈ arm.headers, h.Comparable := by
  intro arm harm hd hmem e he
  exact h e (List.mem_flatMap.mpr ⟨arm, harm, mem_values.mpr ⟨hd, hmem, he⟩⟩)

/-- A compare without arms has nothing to compare. -/
theorem codegen_of_nil (hpattern : node.needsPatternCodegen = false) (harms : node.arms = []) :
    ∀ code, node.codegen H = some code → Runs H node code := by
  intro code hcode stale v s _
  simp only [codegen, hpattern, harms, Bool.false_eq_true, if_false, if_true,
    Option.some.injEq] at hcode
  simp [← hcode, select, harms, selectFrom]

theorem codegen_eq_switch (hpattern : node.needsPatternCodegen = false) (harms : node.arms ≠ [])
    (hname : node.subjectType.getName ≠ "string") : node.codegen H = node.codegenSwitch := by
  simp [codegen, hpattern, harms, hname]

theorem codegen_eq_strings (hpattern : node.needsPatternCodegen = false) (harms : node.arms ≠ [])
    (hname : node.subjectType.getName = "string") :
    node.codegen H = some node.codegenStrings := by
  simp [codegen, hpattern, harms, hname]

theorem Accepted.firstMatch_of_switch [Nonempty σ] (h : node.Accepted)
    (hpattern : node.needsPatternCodegen = false) (hname : node.subjectType.getName ≠ "string")
    (hhigh : node.SwitchConstants → ∀ e ∈ allValues node.arms, ¬ IsHighChar e) :
    FirstMatch H node := by
  have hplain := isPlain_of_not_needsPatternCodegen hpattern
  by_cases harms : node.arms = []
  · exact h.firstMatch fun code hcode => ⟨codegen_of_nil hpattern harms code hcode, by simp [harms]⟩
  refine h.firstMatch fun code hcode => ?_
  rw [codegen_eq_switch hpattern harms hname] at hcode
  have hconst : node.SwitchConstants := isSome_codegenSwitch.mp (by rw [hcode]; rfl)
  refine ⟨fun stale v s hv => ?_, comparable_of_allValues fun e he => ?_⟩
  · rw [codegenSwitch_select h.subject h.suits hplain (h.allValues_ne_nil hplain harms) hcode
      (hhigh hconst) stale s hv]
  · obtain ⟨hresolves, hcompat⟩ := suits_of_mem_allValues h.suits he
    exact ValueExpr.comparable_of_kind hresolves
      (.inl (isInteger_of_caseValue h.subject hresolves hcompat (hconst.1 e he)).2)

theorem Accepted.firstMatch_of_string (h : node.Accepted)
    (hpattern : node.needsPatternCodegen = false) (hname : node.subjectType.getName = "string")
    (hlater : node.LaterReturn) : FirstMatch H node := by
  have hplain := isPlain_of_not_needsPatternCodegen hpattern
  by_cases harms : node.arms = []
  · exact h.firstMatch fun code hcode => ⟨codegen_of_nil hpattern harms code hcode, by simp [harms]⟩
  refine h.firstMatch fun code hcode => ?_
  rw [codegen_eq_strings hpattern harms hname, Option.some.injEq] at hcode
  subst hcode
  refine ⟨(codegenStrings_runs h.subject h.suits hplain hname).mpr hlater,
    comparable_of_allValues fun e he => ?_⟩
  obtain ⟨hresolves, -⟩ := suits_of_mem_allValues h.suits he
  exact ValueExpr.comparable_of_kind hresolves
    (.inr (areStrings h.subject h.suits (kind_of_getName h.subject hname) e he))

/-- A plain compare that runs the first matching arm has no header that goes wrong. -/
theorem Accepted.lowers [Nonempty σ] (h : node.Accepted)
    (hpattern : node.needsPatternCodegen = false) (hfirst : FirstMatch H node) : node.Lowers := by
  have hplain := isPlain_of_not_needsPatternCodegen hpattern
  simp only [Lowers, hpattern, Bool.false_eq_true, if_false]
  by_cases harms : node.arms = []
  · split
    · intro a s later s' hlater
      rw [harms] at hlater
      cases hlater
      rfl
    · exact fun _ => by simp [harms, allValues]
  split
  · rename_i hname
    exact (codegenStrings_runs h.subject h.suits hplain hname).mp
      (hfirst.runs _ (codegen_eq_strings hpattern harms hname))
  · rename_i hname
    intro hconst e he hhigh
    obtain ⟨code, hcode⟩ := Option.isSome_iff_exists.mp (isSome_codegenSwitch.mpr hconst)
    obtain ⟨v, hv, hne⟩ := runSwitch_of_isHighChar (H := H) h.subject h.suits hplain hcode he hhigh
      (fun _ => none) (Classical.arbitrary σ)
    exact hne (hfirst.runs code ((codegen_eq_switch hpattern harms hname).trans hcode) _ _ _ hv)

end CompareExpr

/-- The kinds of a program that declares no type. -/
def scalarKind : TurfType → Kind
  | .int => .int
  | .int32 => .int32
  | .char => .char
  | .bool => .bool
  | .string => .string
  | .double => .double
  | .reference p => .reference p
  | _ => .other

/-- The types of a program that declares none and whose expressions are scalars. -/
inductive IsScalar : TurfType → Prop
  | int : IsScalar .int
  | int32 : IsScalar .int32
  | char : IsScalar .char
  | bool : IsScalar .bool
  | string : IsScalar .string
  | double : IsScalar .double

/-- The types of a program that declares none. -/
def scalars : TypeTable := {
  kind := scalarKind
  errorVariants := fun _ => none
  IsType := IsScalar
  isType_int := .int
  isType_int32 := .int32
  isType_char := .char
  isType_bool := .bool
  isType_string := .string
  isType_double := .double
  isType_named := nofun
  isType_field := fun τ st h => by cases τ <;> cases h
  isType_payload := nofun
  kind_int := rfl
  kind_int32 := rfl
  kind_char := rfl
  kind_bool := rfl
  kind_string := rfl
  kind_double := rfl
  kind_reference := fun _ => rfl
  kind_congr := fun A B hA hB hname _ => by
    cases hA <;> cases hB <;> first | rfl | exact absurd hname (by decide)
  closed := fun τ h => by cases h <;> rfl
  nominal := fun τ h _ => by cases h <;> rfl
  not_opaque := fun τ h _ => by cases h <;> rfl
  not_base := fun τ base args _ _ h => by cases h
  string_name := fun τ h => by cases τ <;> first | rfl | cases h
  struct_pointee := fun τ st h => by cases τ <;> cases h
  userError_variants := fun τ variants h => by cases τ <;> cases h
  enum_nodup := fun τ variants h => by cases τ <;> cases h
  variant_identifier := nofun }

/-- A memory of numbers. -/
def numbers : Heap scalars Unit where
  load _ _ := .i64 0
  typeAt _ := .int
  typed _ _ := .int rfl

/-- `compare c { matches 'x': .. done otherwise: .. }` for a char `x`. -/
def charCompare (x : BitVec 8) : CompareExpr scalars Unit where
  subjectType := .char
  selfSubject := false
  arms := [⟨[⟨.value (.char x), none⟩]⟩]
  hasOtherBody := true

namespace CompareExpr

theorem accepted_charCompare (x : BitVec 8) : (charCompare x).Accepted where
  subject := ⟨.char, rfl⟩
  headers := by simp [charCompare]
  resolves := by
    intro arm harm
    obtain rfl : arm = _ := List.mem_singleton.mp harm
    rfl
  checks := ⟨false, rfl⟩

theorem lowers_charCompare : (charCompare 0x61).Lowers := by
  intro _ e he
  obtain rfl : e = .char 0x61 := by simpa [charCompare, allValues, values] using he
  rintro ⟨c, hc, hhigh⟩
  cases hc
  exact absurd hhigh (by decide)

end CompareExpr

end Compare

end TurfLang
