import TurfLang.Codegen.CompareCorrect

/-!
# Headers of one value

A header that repeats the value of an earlier one is dead code, and the `switch` would get one
constant twice. The checker knows values by the keys that it makes from the syntax of a header. For
numbers, strings and enum variants a key is the value; some headers have a value and no key, and the
exported constants of two modules can have one key and two values.
-/

namespace TurfLang

namespace Compare

/-! ### Two members of a list -/

section Two

variable {α : Type} {R S : α → α → Prop} {l : List α}

/-- Two members of a list, one after the other, stand in a relation. -/
def Two (R : α → α → Prop) (l : List α) : Prop := ∃ a b, [a, b].Sublist l ∧ R a b

theorem not_two : ¬ Two R l ↔ l.Pairwise fun a b => ¬ R a b := by
  rw [List.pairwise_iff_forall_sublist]
  simp only [Two, not_exists, not_and]

theorem two_or : Two (fun a b => R a b ∨ S a b) l ↔ Two R l ∨ Two S l := by
  constructor
  · rintro ⟨a, b, hab, h | h⟩
    · exact .inl ⟨a, b, hab, h⟩
    · exact .inr ⟨a, b, hab, h⟩
  · rintro (⟨a, b, hab, h⟩ | ⟨a, b, hab, h⟩)
    · exact ⟨a, b, hab, .inl h⟩
    · exact ⟨a, b, hab, .inr h⟩

theorem two_congr (h : ∀ a ∈ l, ∀ b ∈ l, R a b ↔ S a b) : Two R l ↔ Two S l := by
  refine exists₂_congr fun a b => and_congr_right fun hab => h a ?_ b ?_
  · exact hab.subset (by simp)
  · exact hab.subset (by simp)

/-- A list whose keys are not pairwise different has two members of one key. -/
theorem not_nodup_keys {β : Type} {key : α → Option β} :
    ¬ (l.filterMap key).Nodup ↔ Two (fun a b => ∃ k, key a = some k ∧ key b = some k) l := by
  rw [← not_iff_not, not_not, not_two, List.Nodup, List.pairwise_filterMap]
  refine List.Pairwise.iff fun {a b} => ?_
  constructor
  · rintro h ⟨k, ha, hb⟩
    exact h k ha k hb rfl
  · rintro h k ha k' hb rfl
    exact h ⟨k, ha, hb⟩

end Two

/-! ### Values -/

variable {T : TypeTable} {σ : Type}

/-- In every state both expressions return, and with the same value. -/
def ValueExpr.SameValue (e e' : ValueExpr T σ) : Prop :=
  ∀ s, ∃ v w s₁ s₂, e.codegen.run s = some (v, s₁) ∧ e'.codegen.run s = some (w, s₂) ∧
    v.sameAs w = true

namespace Pattern

/-- Two patterns that are one value each, and the same one: no part of them is left open. -/
inductive SameValue : Pattern T σ → Pattern T σ → Prop
  | value {e e' : ValueExpr T σ} (h : e.SameValue e') : SameValue (.value e) (.value e')
  | errorVariant {leftName rightName : String} {subs subs' : List (Pattern T σ)}
    {hasParens hasParens' : Bool} (h : List.Forall₂ SameValue subs subs') :
    SameValue (.errorVariant leftName rightName subs hasParens false)
      (.errorVariant leftName rightName subs' hasParens' false)
  | struct {typeSpelling : String} {names : List String} {subs subs' : List (Pattern T σ)}
    {fields : List (String × Pattern T σ)} (hfields : fields.Perm (names.zip subs'))
    (h : List.Forall₂ SameValue subs subs') :
    SameValue (.struct typeSpelling (names.zip subs) false) (.struct typeSpelling fields false)

/-- What `visitCompare` recognises a header by. -/
def patternKey : Pattern T σ → Option PatternKey
  | value e => e.patternKey
  | _ => none

def SameKey (p q : Pattern T σ) : Prop := ∃ k, p.patternKey = some k ∧ q.patternKey = some k

/-- An exported constant of a module. -/
def IsConstant (p : Pattern T σ) : Prop :=
  ∃ name value hid, p = .value (.moduleConstant name value hid)

end Pattern

/-- A number of 64 bits without a sign, a string without a zero byte, an enum variant. -/
def ValueExpr.IsPlain : ValueExpr T σ → Prop
  | int (.digits value) => value < 2 ^ 64
  | string bytes => 0 ∉ bytes
  | enumVariant leftName rightName =>
    ∃ variants, T.kind (.named leftName) = .enum variants ∧ variants.idxOf rightName < 2 ^ 64
  | _ => False

def Pattern.IsPlain : Pattern T σ → Prop
  | value e => e.IsPlain
  | _ => False

/-! ### A key is a value -/

section Keys

variable {τ : TurfType} {e e' : ValueExpr T σ}

/-- Two constants are one value exactly when they are equal as values. -/
theorem sameValue_const [Nonempty σ] {v w : Val} (he : e.codegen = .const v) (he' : e'.codegen = .const w) :
    e.SameValue e' ↔ v.sameAs w = true := by
  unfold ValueExpr.SameValue
  rw [he, he']
  constructor
  · intro h
    obtain ⟨v', w', _, _, hv, hw, hsame⟩ := h (Classical.arbitrary σ)
    cases hv
    cases hw
    exact hsame
  · exact fun h s => ⟨v, w, s, s, rfl, rfl, h⟩

theorem codegen_enumVariant {leftName rightName : String} {variants : List String}
    (hkind : T.kind (.named leftName) = .enum variants) :
    (ValueExpr.enumVariant leftName rightName : ValueExpr T σ).codegen =
      .const (.i64 (BitVec.ofNat 64 (variants.idxOf rightName))) := by
  simp only [ValueExpr.codegen, hkind]

theorem exists_variants {leftName rightName : String}
    (h : (ValueExpr.enumVariant leftName rightName : ValueExpr T σ).resolves = true) :
    ∃ variants, T.kind (.named leftName) = .enum variants ∧ rightName ∈ variants := by
  simp only [ValueExpr.resolves] at h
  split at h
  · rename_i variants hkind
    exact ⟨variants, hkind, by simpa using h⟩
  · cases h

/-- What `visitCompare` makes sure of a header that is an expression. -/
def Checks (τ : TurfType) (e : ValueExpr T σ) : Prop :=
  e.resolves = true ∧ τ.typesCompatible e.type = true

/-- The enum of a header is that of the subject. -/
theorem kind_of_enumVariant (hsub : SubjectType T τ) {leftName rightName : String}
    {variants : List String} (h : Checks τ (.enumVariant leftName rightName : ValueExpr T σ))
    (hkind : T.kind (.named leftName) = .enum variants) : T.kind τ = .enum variants := by
  have htype : T.kind (.enumVariant leftName rightName : ValueExpr T σ).type = .enum variants := hkind
  simpa [htype, eq_comm] using hsub.kind_of_compatible (ValueExpr.isType h.1) h.2

theorem patternKey_eq_some {k : PatternKey} (h : e.patternKey = some k) :
    (∃ value, e = .int (.digits value) ∧ k = .int value) ∨
      (∃ bytes, e = .string bytes ∧ k = .str bytes) ∨
      (∃ leftName rightName, e = .enumVariant leftName rightName ∧ k = .enum rightName) ∨
      (Pattern.value e).IsConstant := by
  cases e with
  | int literal =>
    cases literal with
    | digits value =>
      cases h
      exact .inl ⟨value, rfl, rfl⟩
    | minus _ _ => cases h
  | string bytes =>
    cases h
    exact .inr (.inl ⟨bytes, rfl, rfl⟩)
  | enumVariant leftName rightName =>
    cases h
    exact .inr (.inr (.inl ⟨leftName, rightName, rfl, rfl⟩))
  | moduleConstant name value hid => exact .inr (.inr (.inr ⟨name, value, hid, rfl⟩))
  | _ => cases h

theorem sameAs_i64 (a b : BitVec 64) : (Val.i64 a).sameAs (.i64 b) = decide (a = b) :=
  sameAs_of_isInt (isInt_i64 a) (isInt_i64 b)

/-- One key is one value, but for exported constants. -/
theorem sameValue_of_patternKey [Nonempty σ] (hsub : SubjectType T τ) (he : Checks τ e) (he' : Checks τ e')
    {k : PatternKey} (hk : e.patternKey = some k) (hk' : e'.patternKey = some k)
    (hconst : ¬ (Pattern.value e).IsConstant) (hconst' : ¬ (Pattern.value e').IsConstant) :
    e.SameValue e' := by
  obtain ⟨value, rfl, rfl⟩ | ⟨bytes, rfl, rfl⟩ | ⟨leftName, rightName, rfl, rfl⟩ | h :=
    patternKey_eq_some hk
  · obtain ⟨_, rfl, heq⟩ | ⟨_, rfl, heq⟩ | ⟨_, _, rfl, heq⟩ | h := patternKey_eq_some hk'
    · cases heq
      exact (sameValue_const rfl rfl).2 (by simp [sameAs_i64])
    · cases heq
    · cases heq
    · exact absurd h hconst'
  · obtain ⟨_, rfl, heq⟩ | ⟨_, rfl, heq⟩ | ⟨_, _, rfl, heq⟩ | h := patternKey_eq_some hk'
    · cases heq
    · cases heq
      exact (sameValue_const rfl rfl).2 (by simp [Val.sameAs])
    · cases heq
    · exact absurd h hconst'
  · obtain ⟨_, rfl, heq⟩ | ⟨_, rfl, heq⟩ | ⟨leftName', _, rfl, heq⟩ | h := patternKey_eq_some hk'
    · cases heq
    · cases heq
    · cases heq
      obtain ⟨variants, hkind, -⟩ := exists_variants he.1
      obtain ⟨variants', hkind', -⟩ := exists_variants he'.1
      have hsubject := kind_of_enumVariant hsub he hkind
      rw [kind_of_enumVariant hsub he' hkind'] at hsubject
      cases hsubject
      refine (sameValue_const (codegen_enumVariant hkind) (codegen_enumVariant hkind')).2 ?_
      simp [sameAs_i64]
    · exact absurd h hconst'
  · exact absurd h hconst

/-- What the value of a plain header is. -/
theorem plain_cases (he : Checks τ e) (h : e.IsPlain) :
    (∃ value < 2 ^ 64, e = .int (.digits value) ∧ e.codegen = .const (.i64 (BitVec.ofNat 64 value))) ∨
      (∃ bytes, 0 ∉ bytes ∧ e = .string bytes ∧ e.codegen = .const (.str (cString bytes))) ∨
      ∃ leftName rightName variants, e = .enumVariant leftName rightName ∧
        T.kind (.named leftName) = .enum variants ∧ rightName ∈ variants ∧
        variants.idxOf rightName < 2 ^ 64 ∧
        e.codegen = .const (.i64 (BitVec.ofNat 64 (variants.idxOf rightName))) := by
  cases e with
  | int literal =>
    cases literal with
    | digits value => exact .inl ⟨value, h, rfl, rfl⟩
    | minus _ _ => exact h.elim
  | string bytes => exact .inr (.inl ⟨bytes, h, rfl, rfl⟩)
  | enumVariant leftName rightName =>
    obtain ⟨variants, hkind, hlt⟩ := h
    obtain ⟨variants', hkind', hmem⟩ := exists_variants he.1
    rw [hkind] at hkind'
    cases hkind'
    exact .inr (.inr ⟨leftName, rightName, variants, rfl, hkind, hmem, hlt,
      codegen_enumVariant hkind⟩)
  | _ => exact h.elim

/-- A number is no header of an enum. -/
theorem kind_ne_enum (hsub : SubjectType T τ) {literal : IntLiteral} {variants : List String}
    (h : Checks τ (.int literal : ValueExpr T σ)) : T.kind τ ≠ .enum variants := by
  intro hkind
  have htype : T.kind (.int literal : ValueExpr T σ).type = .int := T.kind_int
  simpa [htype, hkind] using hsub.kind_of_compatible (ValueExpr.isType h.1) h.2

theorem ofNat_inj {m n : ℕ} (hm : m < 2 ^ 64) (hn : n < 2 ^ 64)
    (h : BitVec.ofNat 64 m = BitVec.ofNat 64 n) : m = n := by
  have hnat := congrArg BitVec.toNat h
  rwa [BitVec.toNat_ofNat, BitVec.toNat_ofNat, Nat.mod_eq_of_lt hm, Nat.mod_eq_of_lt hn] at hnat

theorem bytes_cString {bytes : List (BitVec 8)} (h : 0 ∉ bytes) : (cString bytes).1 = bytes := by
  refine List.takeWhile_eq_self_iff.2 fun c hc => ?_
  simp only [ne_eq, decide_not, Bool.not_eq_true', decide_eq_false_iff_not]
  rintro rfl
  exact h hc

/-- One value is one key for plain headers. -/
theorem patternKey_of_sameValue [Nonempty σ] (hsub : SubjectType T τ) (he : Checks τ e)
    (he' : Checks τ e') (hplain : e.IsPlain) (hplain' : e'.IsPlain) (hsame : e.SameValue e') :
    ∃ k, e.patternKey = some k ∧ e'.patternKey = some k := by
  obtain ⟨m, hm, rfl, hcode⟩ | ⟨s, hs, rfl, hcode⟩ | ⟨E, V, vs, rfl, hkind, hV, hlt, hcode⟩ :=
    plain_cases he hplain
  · obtain ⟨n, hn, rfl, hcode'⟩ | ⟨t, ht, rfl, hcode'⟩ | ⟨E', V', vs', rfl, hkind', -⟩ :=
      plain_cases he' hplain'
    · have heq := (sameValue_const hcode hcode').1 hsame
      rw [sameAs_i64, decide_eq_true_eq] at heq
      obtain rfl := ofNat_inj hm hn heq
      exact ⟨_, rfl, rfl⟩
    · cases (sameValue_const hcode hcode').1 hsame
    · exact absurd (kind_of_enumVariant hsub he' hkind') (kind_ne_enum hsub he)
  · obtain ⟨n, hn, rfl, hcode'⟩ | ⟨t, ht, rfl, hcode'⟩ | ⟨E', V', vs', rfl, -, -, -, hcode'⟩ :=
      plain_cases he' hplain'
    · cases (sameValue_const hcode hcode').1 hsame
    · have heq := (sameValue_const hcode hcode').1 hsame
      simp only [Val.sameAs, decide_eq_true_eq] at heq
      have hbytes : s = t := by rw [← bytes_cString hs, ← bytes_cString ht, heq]
      exact ⟨_, rfl, by rw [hbytes]; rfl⟩
    · cases (sameValue_const hcode hcode').1 hsame
  · obtain ⟨n, hn, rfl, hcode'⟩ | ⟨t, ht, rfl, hcode'⟩ |
        ⟨E', V', vs', rfl, hkind', hV', hlt', hcode'⟩ := plain_cases he' hplain'
    · exact absurd (kind_of_enumVariant hsub he hkind) (kind_ne_enum hsub he')
    · cases (sameValue_const hcode hcode').1 hsame
    · have hvariants := kind_of_enumVariant hsub he hkind
      rw [kind_of_enumVariant hsub he' hkind'] at hvariants
      cases hvariants
      have heq := (sameValue_const hcode hcode').1 hsame
      rw [sameAs_i64, decide_eq_true_eq] at heq
      obtain rfl := (List.idxOf_inj hV).1 (ofNat_inj hlt hlt' heq)
      exact ⟨_, rfl, rfl⟩

end Keys

/-! ### What the checker reports -/

section Report

variable {node : CompareExpr T σ}

/-- The headers of an arm that have no guard. -/
def MatchesArm.unguarded (arm : MatchesArm T σ) : List (Pattern T σ) :=
  (arm.headers.filter fun h => h.guard.isNone).map fun h => h.pattern

namespace CompareExpr

/-- The headers of all arms that have no guard, in order. -/
def unguarded (node : CompareExpr T σ) : List (Pattern T σ) :=
  node.arms.flatMap MatchesArm.unguarded

theorem patternKey_of_checkHeader {h : Header T σ} {st : List (String × TurfType)}
    {r : HeaderFacts × List (String × TurfType)} (hcheck : node.checkHeader h st = .ok r) :
    r.1.patternKey = if h.guard.isNone then h.pattern.patternKey else none := by
  obtain ⟨pattern, guard⟩ := h
  cases pattern with
  | value e =>
    simp only [checkHeader, Checker.bind_eq_ok, Checker.pure_eq_ok] at hcheck
    obtain ⟨_, _, -, _, _, -, rfl⟩ := hcheck
    cases guard <;> rfl
  | errorVariant leftName rightName subs hasParens hasRest =>
    simp only [checkHeader, Checker.bind_eq_ok, Checker.pure_eq_ok] at hcheck
    obtain ⟨_, _, -, rfl⟩ := hcheck
    cases guard <;> rfl
  | binding name => cases hcheck
  | wildcard | struct =>
    simp only [checkHeader, Checker.bind_eq_ok, Checker.pure_eq_ok] at hcheck
    obtain ⟨_, _, -, rfl⟩ := hcheck
    cases guard <;> rfl

theorem patternKeys_of_checkHeaders {headers : List (Header T σ)} {st : List (String × TurfType)}
    {r : List HeaderFacts × List (String × TurfType)}
    (hcheck : node.checkHeaders headers st = .ok r) :
    r.1.filterMap (·.patternKey) =
      (MatchesArm.unguarded ⟨headers⟩).filterMap Pattern.patternKey := by
  induction headers generalizing st r with
  | nil =>
    rw [checkHeaders, Checker.pure_eq_ok] at hcheck
    rw [hcheck]
    rfl
  | cons h rest ih =>
    simp only [checkHeaders, Checker.bind_eq_ok, Checker.pure_eq_ok] at hcheck
    obtain ⟨facts, _, hh, fs, _, hrest, rfl⟩ := hcheck
    have hkey := patternKey_of_checkHeader hh
    have hkeys := ih hrest
    simp only [MatchesArm.unguarded] at hkeys ⊢
    rw [List.filterMap_cons, hkeys, hkey]
    cases hguard : h.guard.isNone with
    | true => simp [hguard, List.filterMap_cons]
    | false => simp [hguard]

theorem patternKeys_of_checkArms : ∀ {arms : List (MatchesArm T σ)} {facts : List HeaderFacts},
    node.checkArms arms = .ok facts →
    facts.filterMap (·.patternKey) =
      (arms.flatMap MatchesArm.unguarded).filterMap Pattern.patternKey
  | [], _, h => by
    cases h
    rfl
  | arm :: rest, facts, hcheck => by
    rw [checkArms] at hcheck
    cases hh : (node.checkHeaders arm.headers).run [] with
    | error e => rw [hh] at hcheck; cases hcheck
    | ok r =>
      cases hr : node.checkArms rest with
      | error e => rw [hh] at hcheck; simp only [hr] at hcheck; cases hcheck
      | ok fs =>
        rw [hh] at hcheck
        simp only [hr] at hcheck
        cases hcheck
        have hkeys : r.1.filterMap (·.patternKey) = arm.unguarded.filterMap Pattern.patternKey :=
          patternKeys_of_checkHeaders hh
        rw [List.filterMap_append, hkeys, patternKeys_of_checkArms hr, List.flatMap_cons,
          List.filterMap_append]

theorem exhaustive_ne_duplicate (facts : List HeaderFacts) :
    node.exhaustive facts ≠ .error .duplicate := by
  have hcovered : ∀ names : List String,
      (if names.all (· ∈ coveredValues facts) then return true else throw .notExhaustive :
        Except CompareError Bool) ≠ .error .duplicate := by
    intro names
    split <;> simp [pure, Except.pure, throw, throwThe, MonadExceptOf.throw]
  unfold exhaustive
  dsimp only
  split
  · nofun
  split
  · nofun
  split
  · exact hcovered _
  · exact hcovered _
  · exact hcovered _
  · nofun
  · nofun

/-- `DuplicateMatchArm` is reported exactly when two headers without a guard have one key. -/
theorem visitCompare_eq_duplicate {facts : List HeaderFacts}
    (hfacts : node.checkArms node.arms = .ok facts) :
    node.visitCompare = .error .duplicate ↔ Two Pattern.SameKey node.unguarded := by
  have hkeys := patternKeys_of_checkArms hfacts
  have htwo : ¬ (facts.filterMap (·.patternKey)).Nodup ↔ Two Pattern.SameKey node.unguarded := by
    rw [hkeys]
    exact not_nodup_keys
  rw [← htwo]
  by_cases hdup : (facts.filterMap (·.patternKey)).Nodup
  · have hvisit : node.visitCompare = node.exhaustive facts := by
      simp [visitCompare, hfacts, hdup, bind, Except.bind]
    simp [hvisit, exhaustive_ne_duplicate, hdup]
  · have hvisit : node.visitCompare = .error .duplicate := by
      simp [visitCompare, hfacts, hdup, bind, Except.bind]
      rfl
    simp [hvisit, hdup]

/-! ### What repeats -/

/-- The checker reports a duplicate exactly when two headers without a guard are one value, and no
compare that it accepts adds one constant to its `switch` twice. -/
structure RepeatsReported (node : CompareExpr T σ) : Prop where
  reported : node.visitCompare = .error .duplicate ↔ Two Pattern.SameValue node.unguarded
  cases : ∀ b, node.visitCompare = .ok b → node.needsPatternCodegen = false → node.arms ≠ [] →
    node.subjectType.getName ≠ "string" →
    ∀ cases, addCases 0 node.arms = some cases → (cases.map Prod.fst).Nodup

/-- Two headers of one key and one value. -/
def KeyedRepeat (p q : Pattern T σ) : Prop := p.SameKey q ∧ p.SameValue q

/-- Two headers of one key that are not one value, one of them an exported constant. -/
def NameClash (p q : Pattern T σ) : Prop :=
  p.SameKey q ∧ (p.IsConstant ∨ q.IsConstant) ∧ ¬ p.SameValue q

/-- Two headers of one value that have not one key, one of them not plain. -/
def UnkeyedRepeat (p q : Pattern T σ) : Prop :=
  ¬ p.SameKey q ∧ ¬ (p.IsPlain ∧ q.IsPlain) ∧ p.SameValue q

/-- Where keys tell what is repeated: two headers repeat a value under one key; or headers of one
key and different values, and headers of one value and different keys, are both there or neither. -/
def KeysTell (node : CompareExpr T σ) : Prop :=
  Two KeyedRepeat node.unguarded ∨
    (Two NameClash node.unguarded ↔ Two UnkeyedRepeat node.unguarded)

theorem checks_of_mem_unguarded
    (hsuits : ∀ arm ∈ node.arms, ∀ h ∈ arm.headers, h.Suits node.subjectType)
    {e : ValueExpr T σ} (he : .value e ∈ node.unguarded) : Checks node.subjectType e := by
  obtain ⟨arm, harm, hmem⟩ := List.mem_flatMap.1 he
  obtain ⟨h, hfilter, hpattern⟩ := List.mem_map.1 hmem
  have hsuit := hsuits arm harm h (List.mem_filter.1 hfilter).1
  unfold Header.Suits at hsuit
  rw [hpattern] at hsuit
  exact hsuit

/-- A pattern with a key is an expression. -/
theorem exists_value {p : Pattern T σ} {k : PatternKey} (h : p.patternKey = some k) :
    ∃ e, p = .value e ∧ e.patternKey = some k := by
  cases p with
  | value e => exact ⟨e, rfl, h⟩
  | _ => cases h

/-- One key is one value, or a clash of names. -/
theorem sameKey_iff [Nonempty σ] (hsub : SubjectType T node.subjectType)
    (hsuits : ∀ arm ∈ node.arms, ∀ h ∈ arm.headers, h.Suits node.subjectType) {p q : Pattern T σ}
    (hp : p ∈ node.unguarded) (hq : q ∈ node.unguarded) :
    p.SameKey q ↔ KeyedRepeat p q ∨ NameClash p q := by
  constructor
  · intro hkey
    by_cases hsame : p.SameValue q
    · exact .inl ⟨hkey, hsame⟩
    refine .inr ⟨hkey, ?_, hsame⟩
    by_contra hconst
    obtain ⟨hpc, hqc⟩ := not_or.1 hconst
    obtain ⟨k, hk, hk'⟩ := hkey
    obtain ⟨e, rfl, he⟩ := exists_value hk
    obtain ⟨e', rfl, he'⟩ := exists_value hk'
    exact hsame (.value (sameValue_of_patternKey hsub (checks_of_mem_unguarded hsuits hp)
      (checks_of_mem_unguarded hsuits hq) he he' hpc hqc))
  · rintro (h | h)
    · exact h.1
    · exact h.1

/-- One value is one key, or one of the headers is not plain. -/
theorem sameValue_iff [Nonempty σ] (hsub : SubjectType T node.subjectType)
    (hsuits : ∀ arm ∈ node.arms, ∀ h ∈ arm.headers, h.Suits node.subjectType) {p q : Pattern T σ}
    (hp : p ∈ node.unguarded) (hq : q ∈ node.unguarded) :
    p.SameValue q ↔ KeyedRepeat p q ∨ UnkeyedRepeat p q := by
  constructor
  · intro hsame
    by_cases hkey : p.SameKey q
    · exact .inl ⟨hkey, hsame⟩
    refine .inr ⟨hkey, ?_, hsame⟩
    rintro ⟨hpp, hqp⟩
    cases hsame with
    | value h =>
      exact hkey (patternKey_of_sameValue hsub (checks_of_mem_unguarded hsuits hp)
        (checks_of_mem_unguarded hsuits hq) hpp hqp h)
    | errorVariant _ => exact hpp.elim
    | struct _ _ => exact hpp.elim
  · rintro (h | h)
    · exact h.2
    · exact h.2.2

/-! ### The cases of the `switch` -/

/-- Two cases of one constant are two headers of one value. -/
theorem sameValue_of_caseValue [Nonempty σ] (hsub : SubjectType T node.subjectType)
    {e e' : ValueExpr T σ} (he : Checks node.subjectType e) (he' : Checks node.subjectType e')
    {bits : BitVec 64} (hc : caseValue e.codegen = some bits)
    (hc' : caseValue e'.codegen = some bits) : e.SameValue e' := by
  by_cases hchar : T.kind node.subjectType = .char
  · obtain ⟨c, hcode⟩ := exists_char_of_caseValue hsub he.1 he.2 hchar (by rw [hc]; rfl)
    obtain ⟨c', hcode'⟩ := exists_char_of_caseValue hsub he'.1 he'.2 hchar (by rw [hc']; rfl)
    rw [hcode] at hc
    rw [hcode', ← hc, caseValue, caseValue, Option.some.injEq] at hc'
    have heq : c' = c := by
      have hint := congrArg BitVec.toInt hc'
      rw [BitVec.toInt_signExtend_of_le (by decide), BitVec.toInt_signExtend_of_le (by decide)] at hint
      exact BitVec.eq_of_toInt_eq hint
    refine (sameValue_const hcode hcode').2 ?_
    rw [heq]
    simp [Val.sameAs, Val.number]
  · have hlow : ∀ {e : ValueExpr T σ}, Checks node.subjectType e → ¬ IsHighChar e := by
      rintro e he ⟨c, hcode, -⟩
      exact hchar (kind_of_char hsub he.1 he.2 hcode)
    obtain ⟨w, hw, hint⟩ := isInt_of_caseValue hc (hlow he)
    obtain ⟨w', hw', hint'⟩ := isInt_of_caseValue hc' (hlow he')
    exact (sameValue_const hw hw').2 (by rw [sameAs_of_isInt hint hint', decide_eq_true rfl])

/-- The headers of a compare without patterns and guards. -/
theorem unguarded_of_plain (hplain : ∀ arm ∈ node.arms, IsPlain arm) :
    node.unguarded = (allValues node.arms).map .value := by
  have harm : ∀ arm ∈ node.arms, arm.unguarded = (values arm).map .value := by
    rintro ⟨headers⟩ hmem
    have hheaders := hplain _ hmem
    unfold IsPlain at hheaders
    clear hmem
    induction headers with
    | nil => rfl
    | cons h rest ih =>
      obtain ⟨⟨hguard, e, he⟩, hrest⟩ := List.forall_mem_cons.1 hheaders
      have htail := ih hrest
      simp only [MatchesArm.unguarded, values] at htail ⊢
      simp [hguard, he, htail]
  rw [unguarded, allValues, List.map_flatMap]
  exact List.flatMap_congr harm

theorem repeatsReported_iff [Nonempty σ] (hsub : SubjectType T node.subjectType)
    {facts : List HeaderFacts} (hfacts : node.checkArms node.arms = .ok facts) :
    node.RepeatsReported ↔ node.KeysTell := by
  have hsuits := (checkArms_eq_ok hsub.ne_pointer hfacts).1
  have hreport : node.visitCompare = .error .duplicate ↔
      Two KeyedRepeat node.unguarded ∨ Two NameClash node.unguarded := by
    rw [visitCompare_eq_duplicate hfacts, ← two_or]
    exact two_congr fun p hp q hq => sameKey_iff hsub hsuits hp hq
  have hrepeat : Two Pattern.SameValue node.unguarded ↔
      Two KeyedRepeat node.unguarded ∨ Two UnkeyedRepeat node.unguarded := by
    rw [← two_or]
    exact two_congr fun p hp q hq => sameValue_iff hsub hsuits hp hq
  unfold KeysTell
  constructor
  · intro h
    have hreported := h.reported
    rw [hreport, hrepeat] at hreported
    tauto
  · intro h
    have hreported : node.visitCompare = .error .duplicate ↔
        Two Pattern.SameValue node.unguarded := by
      rw [hreport, hrepeat]
      tauto
    refine ⟨hreported, ?_⟩
    intro b hok hpattern _ _ cases hcases
    have hdifferent : node.unguarded.Pairwise fun p q => ¬ p.SameValue q := by
      rw [← not_two, ← hreported, hok]
      nofun
    rw [unguarded_of_plain (isPlain_of_not_needsPatternCodegen hpattern), List.pairwise_map]
      at hdifferent
    have hmap := addCases_eq_some hcases
    rw [← nodup_cases hmap, List.Nodup, List.pairwise_map]
    refine hdifferent.imp_of_mem ?_
    intro e e' he he' hne heq
    -- every header has a case, so two equal cases are one constant
    have hcase : caseValue e.codegen ∈ cases.map fun c => some c.1 := by
      rw [← hmap]
      exact List.mem_map_of_mem he
    obtain ⟨c, -, hc⟩ := List.mem_map.1 hcase
    exact hne (.value (sameValue_of_caseValue hsub (suits_of_mem_allValues hsuits he)
      (suits_of_mem_allValues hsuits he') hc.symm (heq.symm.trans hc.symm)))

/-- `compare n { matches 5: .. done matches 6: matches 5: .. done otherwise: .. }`. -/
def numberCompare : CompareExpr scalars Unit where
  subjectType := .int
  selfSubject := false
  arms := [⟨[⟨.value (.int (.digits 5)), none⟩]⟩,
    ⟨[⟨.value (.int (.digits 6)), none⟩, ⟨.value (.int (.digits 5)), none⟩]⟩]
  hasOtherBody := true

theorem repeatsReported_numberCompare : numberCompare.RepeatsReported := by
  have hsub : SubjectType scalars numberCompare.subjectType := ⟨IsScalar.int, rfl⟩
  refine (repeatsReported_iff hsub rfl).2 (.inl ⟨.value (.int (.digits 5)),
    .value (.int (.digits 5)), ?_, ⟨.int 5, rfl, rfl⟩, .value ?_⟩)
  · simp [numberCompare, unguarded, MatchesArm.unguarded]
  · exact (sameValue_const rfl rfl).2 (by simp [sameAs_i64])

/-- `compare c { matches 'a': .. done matches 'a': .. done otherwise: .. }`. -/
def repeatedChar : CompareExpr scalars Unit where
  subjectType := .char
  selfSubject := false
  arms := [⟨[⟨.value (.char 0x61), none⟩]⟩, ⟨[⟨.value (.char 0x61), none⟩]⟩]
  hasOtherBody := true

/-- The second `'a'` is not reported, and the `switch` gets the constant twice. -/
theorem not_repeatsReported_repeatedChar : repeatedChar.visitCompare = .ok false ∧
    Two Pattern.SameValue repeatedChar.unguarded ∧
    addCases 0 repeatedChar.arms = some [(0x61, 0), (0x61, 1)] ∧
    ¬ repeatedChar.RepeatsReported := by
  have hok : repeatedChar.visitCompare = .ok false := rfl
  have hcases : addCases 0 repeatedChar.arms = some [(0x61, 0), (0x61, 1)] := rfl
  have hname : repeatedChar.subjectType.getName ≠ "string" := by decide
  refine ⟨hok, ?_, hcases, fun h => ?_⟩
  · refine ⟨.value (.char 0x61), .value (.char 0x61), List.Sublist.refl _, .value ?_⟩
    exact (sameValue_const rfl rfl).2 (by simp [Val.sameAs, Val.number])
  · have hnodup := h.cases false hok rfl (by simp [repeatedChar]) hname _ hcases
    exact absurd hnodup (by decide)

end CompareExpr

end Report

end Compare

end TurfLang
