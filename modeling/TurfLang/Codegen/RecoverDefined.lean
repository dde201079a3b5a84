import TurfLang.Codegen.RecoverMerge
import TurfLang.Sema.Exhaustive

/-!
# A `recover` never gives the placeholder

A block that `AllPathsDiverge` accepts is left by a jump in each of its runs. The one value that an
exhaustive compare lets pass is the default value of an enum without variants, which no arm can
name: there a wildcard or an `otherwise` is needed.
-/

namespace TurfLang

namespace Recover

open Compare Abrupt

variable {T : TypeTable} {σ : Type}

/-! ### The subject of a compare -/

/-- The values a subject may have: those of its type; the object of `self`; and where the type is
an enum without variants, its default value. -/
def Admits (H : Heap T σ) (τ : TurfType) (selfSubject : Bool) (v : Val) : Prop :=
  match τ with
  | .pointer p => selfSubject = true → ∃ a, v = .ref a ∧ H.typeAt a = p
  | τ => HasType T H.typeAt v τ ∨ T.kind τ = .enum [] ∧ v = .i64 0

theorem Admits.typed_or_default {H : Heap T σ} {τ : TurfType} {selfSubject : Bool} {v : Val}
    (h : Admits H τ selfSubject v) (hτ : ∀ q, τ ≠ .pointer q) :
    HasType T H.typeAt v τ ∨ T.kind τ = .enum [] := by
  cases τ with
  | pointer p => exact absurd rfl (hτ p)
  | _ => exact h.imp_right And.left

/-- A header that takes every value. -/
def Header.IsWildcard (h : Header T σ) : Prop := h.guard = none ∧ h.pattern = .wildcard

/-- An enum without variants still has a default value, which some arm has to take. -/
def TakesDefault (node : CompareExpr T σ) : Prop :=
  T.kind node.subjectType = .enum [] →
    node.hasOtherBody = true ∨ ∃ arm ∈ node.arms, ∃ h ∈ arm.headers, Header.IsWildcard h

/-! ### Which compares choose an arm -/

section

variable {H : Heap T σ} {node : CompareExpr T σ} {v : Val}

theorem selectFrom_otherBody (v : Val) (s' : σ) : ∀ (arms : List (MatchesArm T σ)) (i : ℕ) (s : σ),
    selectFrom H true i arms v s ≠ some (.noArm, s')
  | [], _, _, h => by simp [selectFrom] at h
  | arm :: rest, i, s, h => by
    rw [selectFrom] at h
    cases htry : tryHeaders H arm.headers v s with
    | none => simp [htry] at h
    | some r =>
      obtain ⟨_ | _, s₁⟩ := r
      · exact selectFrom_otherBody v s' rest (i + 1) s₁ (by simpa [htry] using h)
      · simp [htry] at h

theorem select_of_takes {h : Header T σ} {arm : MatchesArm T σ} (harm : arm ∈ node.arms)
    (hmem : h ∈ arm.headers) (htakes : Takes H h v) (s s' : σ) :
    node.select H v s ≠ some (.noArm, s') := by
  intro heq
  obtain ⟨_, _, hc⟩ := exists_arm_of_takes htakes _ _ _ _ _ ⟨arm, harm, hmem⟩ heq
  cases hc

theorem takes_of_isWildcard {h : Header T σ} (hw : Header.IsWildcard h) : Takes H h v :=
  takes_of_match hw.1 fun s s' hm => by simp [hw.2, matchHeaderPattern, matchPattern] at hm

/-- What an arm contributes is contributed by one of its headers. -/
theorem exists_header_of_checkHeaders : ∀ {headers : List (Header T σ)}
    {st : List (String × TurfType)} {r : List HeaderFacts × List (String × TurfType)},
    node.checkHeaders headers st = .ok r → ∀ f ∈ r.1, ∃ h ∈ headers, ∃ st' r',
      node.checkHeader h st' = .ok r' ∧ r'.1 = f
  | [], _, _, hcheck => by
    rw [CompareExpr.checkHeaders, Checker.pure_eq_ok] at hcheck
    simp [hcheck]
  | h :: rest, st, _, hcheck => by
    simp only [CompareExpr.checkHeaders, Checker.bind_eq_ok, Checker.pure_eq_ok] at hcheck
    obtain ⟨facts, _, hh, fs, _, hrest, rfl⟩ := hcheck
    refine List.forall_mem_cons.mpr ⟨⟨h, List.mem_cons_self, st, _, hh, rfl⟩, fun f hf => ?_⟩
    obtain ⟨h', hmem, hx⟩ := exists_header_of_checkHeaders hrest f hf
    exact ⟨h', List.mem_cons_of_mem _ hmem, hx⟩

theorem exists_header_of_checkArms : ∀ {arms : List (MatchesArm T σ)} {facts : List HeaderFacts},
    node.checkArms arms = .ok facts → ∀ f ∈ facts, ∃ arm ∈ arms, ∃ h ∈ arm.headers, ∃ st r,
      node.checkHeader h st = .ok r ∧ r.1 = f
  | [], _, hcheck => by
    cases hcheck
    simp
  | arm :: rest, facts, hcheck => by
    rw [CompareExpr.checkArms] at hcheck
    cases hh : (node.checkHeaders arm.headers).run [] with
    | error e => rw [hh] at hcheck; cases hcheck
    | ok r =>
      cases hr : node.checkArms rest with
      | error e => rw [hh] at hcheck; simp only [hr] at hcheck; cases hcheck
      | ok fs =>
        rw [hh] at hcheck
        simp only [hr] at hcheck
        cases hcheck
        refine List.forall_mem_append.mpr ⟨fun f hf => ?_, fun f hf => ?_⟩
        · obtain ⟨h, hmem, hx⟩ := exists_header_of_checkHeaders hh f hf
          exact ⟨arm, List.mem_cons_self, h, hmem, hx⟩
        · obtain ⟨arm', hmem', hx⟩ := exists_header_of_checkArms hr f hf
          exact ⟨arm', List.mem_cons_of_mem _ hmem', hx⟩

/-- A struct pattern on `self` looks at the object. -/
theorem takes_of_catchAll_self {p : TurfType} {h : Header T σ} {st : List (String × TurfType)}
    {r : HeaderFacts × List (String × TurfType)} (hτ : node.subjectType = .pointer p)
    (hcheck : node.checkHeader h st = .ok r) (hcatch : r.1.catchAll = true)
    (hv : Admits H node.subjectType node.selfSubject v) : Takes H h v := by
  obtain ⟨pattern, guard⟩ := h
  cases pattern with
  | value e =>
    simp only [CompareExpr.checkHeader, Checker.bind_eq_ok, Checker.pure_eq_ok] at hcheck
    obtain ⟨_, _, _, _, _, _, rfl⟩ := hcheck
    cases guard <;> cases hcatch
  | errorVariant =>
    simp only [CompareExpr.checkHeader, Checker.bind_eq_ok, Checker.pure_eq_ok] at hcheck
    obtain ⟨_, _, _, rfl⟩ := hcheck
    cases hcatch
  | binding name => cases hcheck
  | wildcard =>
    simp only [CompareExpr.checkHeader, Checker.bind_eq_ok, Checker.pure_eq_ok] at hcheck
    obtain ⟨_, _, _, rfl⟩ := hcheck
    exact takes_of_isWildcard ⟨Option.isNone_iff_eq_none.mp (Bool.and_eq_true_iff.mp hcatch).2, rfl⟩
  | struct typeSpelling fields hasRest =>
    simp only [CompareExpr.checkHeader, Pattern.checkPattern, hτ, throughReference,
      Checker.bind_eq_ok, Checker.pure_eq_ok, demand_eq_ok, found_eq_ok,
      Kind.struct?_eq_some] at hcheck
    obtain ⟨b, _, ⟨_, _, ⟨_, _, ⟨hself, -⟩, hq⟩, ty, _, ⟨hk, -⟩, _, _, -, _, _, hfields, _, _, -,
      hb'⟩, rfl⟩ := hcheck
    cases hq
    cases hb'
    obtain ⟨hb, hguard⟩ := Bool.and_eq_true_iff.mp hcatch
    obtain ⟨hsuits, hirr⟩ := Pattern.checkFields_eq_ok fields hfields
    rw [hτ] at hv
    obtain ⟨a, rfl, ha⟩ := hv hself
    refine takes_of_match (Option.isNone_iff_eq_none.mp hguard) fun s s' hm => ?_
    obtain ⟨vs, hload, hvs⟩ := (H.typed s a).of_struct (by rw [ha]; exact hk)
    obtain ⟨bindings, hmatch⟩ := matchFields_of_irrefutable (s := s) fields hsuits (hirr ▸ hb) hvs
    simp [matchHeaderPattern, matchPattern, Heap.deref, hload, hmatch] at hm

/-- An exhaustive compare chooses an arm, for the default value of an enum without variants only
where one is there to take it. -/
theorem select_ne_noArm (hτ : T.IsType node.subjectType)
    (hchooses : (node.hasOtherBody || isExhaustive node) = true) (hdefault : TakesDefault node)
    (hv : Admits H node.subjectType node.selfSubject v) (s s' : σ) :
    node.select H v s ≠ some (.noArm, s') := by
  obtain hother | hex := Bool.or_eq_true_iff.mp hchooses
  · rw [CompareExpr.select, hother]
    exact selectFrom_otherBody v s' _ _ _
  have hcheck : node.visitCompare = .ok true := by
    unfold isExhaustive at hex
    split at hex
    · rename_i covered hcov
      rw [hcov, hex]
    · cases hex
  by_cases hpointer : ∃ p, node.subjectType = .pointer p
  · -- the value of `self` is no number and no error, so an arm takes everything
    obtain ⟨p, hp⟩ := hpointer
    have hkind : (T.kind node.subjectType).isSubject = false := by
      by_contra hk
      have hn := T.nominal _ hτ (by simpa using hk)
      rw [hp] at hn
      cases hn
    obtain ⟨facts, hfacts, hexhaustive⟩ := CompareExpr.visitCompare_eq_ok hcheck
    obtain ⟨f, hf, hcatch⟩ | ⟨_, hk, -⟩ | ⟨hk, -⟩ | ⟨_, hk, -⟩ :=
      CompareExpr.exhaustive_eq_ok hexhaustive
    · obtain ⟨arm, harm, h, hmem, st, r, hheader, rfl⟩ := exists_header_of_checkArms hfacts f hf
      exact select_of_takes harm hmem (takes_of_catchAll_self hp hheader hcatch hv) s s'
    all_goals
      rw [hk] at hkind
      cases hkind
  push Not at hpointer
  obtain hv | hempty := hv.typed_or_default hpointer
  · obtain ⟨facts, hfacts, hexhaustive⟩ := CompareExpr.visitCompare_eq_ok hcheck
    obtain ⟨-, hexplains⟩ := CompareExpr.checkArms_eq_ok hpointer hfacts
    obtain ⟨f, hf, hcatch⟩ | ⟨_, hk, -⟩ | ⟨hk, -⟩ | ⟨_, hk, -⟩ :=
      CompareExpr.exhaustive_eq_ok hexhaustive
    · obtain ⟨arm, harm, h, hmem, hx⟩ := hexplains f hf
      exact select_of_takes harm hmem (takes_of_catchAll hx hcatch hv) s s'
    all_goals exact select_of_exhaustive ⟨hτ, by rw [hk]; rfl⟩ hcheck hv s s'
  · obtain hother | ⟨arm, harm, h, hmem, hw⟩ := hdefault hempty
    · rw [CompareExpr.select, hother]
      exact selectFrom_otherBody v s' _ _ _
    · exact select_of_takes harm hmem (takes_of_isWildcard hw) s s'

end

/-! ### Blocks that diverge -/

mutual

/-- The compares that `AllPathsDiverge` comes to. -/
def Expr.compares : Expr T σ → List (Expr T σ)
  | .block exprs => comparesAll exprs
  | .ifElse branches => branches.compares
  | .compare subject subjectType selfSubject arms =>
    .compare subject subjectType selfSubject arms :: arms.compares
  | _ => []

def Branches.compares : Branches T σ → List (Expr T σ)
  | .noElse => []
  | .elseBody body => body.compares
  | .branch _ body rest => body.compares ++ rest.compares

def Arms.compares : Arms T σ → List (Expr T σ)
  | .noOtherBody => []
  | .otherBody body => body.compares
  | .arm _ body rest => body.compares ++ rest.compares

def comparesAll : List (Expr T σ) → List (Expr T σ)
  | [] => []
  | e :: es => e.compares ++ comparesAll es

end

/-- The subject of a compare has a type of the program, and its values are values of that type. -/
def Expr.SubjectTyped (M : Machine T σ) : Expr T σ → Prop
  | .compare subject subjectType selfSubject _ => T.IsType subjectType ∧
    ∀ fuel s v s', subject.exec M fuel s = some (.value (.val v), s') →
      Admits M.heap subjectType selfSubject v
  | _ => True

/-- A compare over an enum without variants has an `otherwise`, or a wildcard without a guard. -/
def Expr.CoversDefault : Expr T σ → Prop
  | .compare _ subjectType selfSubject arms => TakesDefault (arms.toCompare subjectType selfSubject)
  | _ => True

section

variable {M : Machine T σ} {fuel : ℕ}

theorem diverts_compare {subject : Expr T σ} {subjectType : TurfType} {selfSubject : Bool}
    {arms : Arms T σ}
    (hchooses : (arms.hasOtherBody || isExhaustive (arms.toCompare subjectType selfSubject)) = true)
    (harms : ∀ choice, choice ≠ .noArm → Run.Diverts (arms.exec M fuel choice))
    (htyped : (Expr.compare subject subjectType selfSubject arms).SubjectTyped M)
    (hdefault : (Expr.compare subject subjectType selfSubject arms).CoversDefault) :
    Run.Diverts ((Expr.compare subject subjectType selfSubject arms).exec M fuel) := by
  intro s v s' heq
  rw [Expr.exec] at heq
  obtain ⟨d, s₁, hsubject, hrest⟩ := Run.bind_eq_value.mp heq
  obtain ⟨w, s₂, hplain, hrest'⟩ := Run.bind_eq_value.mp hrest
  obtain ⟨choice, s₃, hchoice, harm⟩ := Run.bind_eq_value.mp hrest'
  cases d with
  | fallible fv => cases hplain
  | val w' =>
    cases hplain
    have hadmits := htyped.2 fuel s _ _ hsubject
    refine harms choice ?_ s₃ v s' harm
    rintro rfl
    unfold Run.op at hchoice
    split at hchoice
    · rename_i c t hselect
      cases hchoice
      have htype : T.IsType (arms.toCompare subjectType selfSubject).subjectType := htyped.1
      exact select_ne_noArm htype hchooses hdefault hadmits _ _ hselect
    · cases hchoice

mutual

/-- A node that `AllPathsDiverge` accepts never comes to its end. -/
theorem Expr.diverts : ∀ e : Expr T σ, e.allPathsDiverge = true →
    (∀ c ∈ e.compares, c.SubjectTyped M ∧ c.CoversDefault) → Run.Diverts (e.exec M fuel)
  | .returnVoid, _, _ | .breakLoop, _, _ | .continueLoop, _, _ => by
    rw [Expr.exec]
    exact Run.diverts_leave _
  | .returnVal val, _, _ => by
    rw [Expr.exec]
    exact Run.Diverts.bind_right _ fun _ => Run.diverts_leave _
  | .block exprs, h, hc => by
    rw [Expr.exec]
    exact diverts_items exprs h hc
  | .ifElse branches, h, hc => by
    rw [Expr.exec]
    exact Branches.diverts branches h hc
  | .compare subject subjectType selfSubject arms, h, hc => by
    rw [Expr.allPathsDiverge, Bool.and_eq_true] at h
    simp only [Expr.compares, List.forall_mem_cons] at hc
    exact diverts_compare h.1 (Arms.diverts arms h.2 hc.2) hc.1.1 hc.1.2

theorem Branches.diverts : ∀ b : Branches T σ, b.allPathsDiverge = true →
    (∀ c ∈ b.compares, c.SubjectTyped M ∧ c.CoversDefault) → Run.Diverts (b.exec M fuel)
  | .elseBody body, h, hc => by
    rw [Branches.exec]
    exact Expr.diverts body h hc
  | .branch cond body rest, h, hc => by
    rw [Branches.allPathsDiverge, Bool.and_eq_true] at h
    simp only [Branches.compares, List.forall_mem_append] at hc
    rw [Branches.exec]
    exact Run.Diverts.bind_right _ fun _ => Run.Diverts.bind_right _ fun _ =>
      (Expr.diverts body h.1 hc.1).ite (Branches.diverts rest h.2 hc.2)

theorem Arms.diverts : ∀ a : Arms T σ, a.allPathsDiverge = true →
    (∀ c ∈ a.compares, c.SubjectTyped M ∧ c.CoversDefault) →
    ∀ choice, choice ≠ .noArm → Run.Diverts (a.exec M fuel choice)
  | .noOtherBody, _, _, choice, hne => by
    cases choice with
    | noArm => exact absurd rfl hne
    | _ => exact Run.diverts_stuck
  | .otherBody body, h, hc, choice, hne => by
    cases choice with
    | otherBody =>
      rw [Arms.exec]
      exact Expr.diverts body h hc
    | _ => exact Run.diverts_stuck
  | .arm headers body rest, h, hc, choice, hne => by
    rw [Arms.allPathsDiverge, Bool.and_eq_true] at h
    simp only [Arms.compares, List.forall_mem_append] at hc
    have hrest := Arms.diverts rest h.2 hc.2
    cases choice with
    | noArm => exact absurd rfl hne
    | otherBody => exact hrest .otherBody hne
    | arm i env =>
      cases i with
      | zero =>
        rw [Arms.exec]
        exact Run.Diverts.bind_right _ fun _ => Expr.diverts body h.1 hc.1
      | succ i => exact hrest (.arm i env) nofun

theorem diverts_items : ∀ l : List (Expr T σ), anyDiverges l = true →
    (∀ c ∈ comparesAll l, c.SubjectTyped M ∧ c.CoversDefault) → Run.Diverts (execItems M fuel l)
  | e :: es, h, hc => by
    rw [anyDiverges, Bool.or_eq_true] at h
    simp only [comparesAll, List.forall_mem_append] at hc
    cases e with
    | defer stmt =>
      -- a deferred statement is not done where it stands
      have hes := h.resolve_left Bool.false_ne_true
      exact (diverts_items es hes hc.2).cleanup _
    | _ =>
      rw [execItems]
      · obtain he | hes := h
        · exact (Expr.diverts _ he hc.1).bind_left _
        · exact Run.Diverts.bind_right _ fun _ => diverts_items es hes hc.2
      all_goals nofun

end

end

/-! ### The value of a `recover` -/

/-- No run comes to the end of a `run` block, and what is joined is the success value of a call
that succeeded or a produced value. -/
def GivesAValue (M : Machine T σ) (kind : RecoverKind) (wrapped body : Expr T σ) : Prop :=
  ∀ fuel, (kind ≠ .produce → Run.Diverts (body.exec M fuel)) ∧
    ∀ s phi s', M.merge kind (wrapped.exec M fuel) (body.exec M fuel) s = some (.value phi, s') →
      (∃ fv t, wrapped.exec M fuel s = some (.value (.fallible fv), t) ∧ fv.isOk = true ∧
        phi = .success fv.successBits) ∨ kind = .produce ∧ ∃ v, phi = .produced v

section

variable {M : Machine T σ} {kind : RecoverKind} {types : RecoverTypes} {wrapped body : Expr T σ}

/-- An accepted `recover run` of a call with a value has a block that diverges. -/
theorem allPathsDiverge_of_accepted (hacc : visitRecoverExpr kind types body = [])
    (hvalue : types.successType.any (·.isVoid) = false) (hkind : kind ≠ .produce) :
    body.allPathsDiverge = true := by
  unfold visitRecoverExpr at hacc
  cases hsuccess : types.successType with
  | none => simp [hsuccess] at hacc
  | some successTy =>
    rw [hsuccess, Option.any_some] at hvalue
    by_contra hdiverge
    cases kind with
    | produce => exact hkind rfl
    | _ => simp [hsuccess, hvalue, hdiverge] at hacc

/-- The join of a `recover` whose block, if it is one, has no end. -/
theorem merge_cases {fuel : ℕ} {s s' : σ} {phi : Phi}
    (hbody : kind ≠ .produce → Run.Diverts (body.exec M fuel))
    (h : M.merge kind (wrapped.exec M fuel) (body.exec M fuel) s = some (.value phi, s')) :
    (∃ fv t, wrapped.exec M fuel s = some (.value (.fallible fv), t) ∧ fv.isOk = true ∧
      phi = .success fv.successBits) ∨ kind = .produce ∧ ∃ v, phi = .produced v := by
  obtain ⟨d, s₁, hwrapped, hrest⟩ := Run.bind_eq_value.mp h
  obtain ⟨fv, s₂, hfv, hbranch⟩ := Run.bind_eq_value.mp hrest
  cases d with
  | val v => cases hfv
  | fallible fv' =>
    cases hfv
    by_cases hok : fv.isOk = true
    · rw [if_pos hok] at hbranch
      cases hbranch
      exact .inl ⟨fv, _, hwrapped, hok, rfl⟩
    · rw [if_neg hok] at hbranch
      refine .inr ?_
      cases kind with
      | produce =>
        obtain ⟨_, _, -, hv⟩ := Run.bind_eq_value.mp hbranch
        obtain ⟨v, _, -, hphi⟩ := Run.bind_eq_value.mp hv
        cases hphi
        exact ⟨rfl, v, rfl⟩
      | run => exact absurd hbranch ((hbody nofun).bind_left _ _ _ _)
      | asRun name =>
        obtain ⟨_, _, -, hblock⟩ := Run.bind_eq_value.mp hbranch
        exact absurd hblock ((hbody nofun).bind_left _ _ _ _)

end

/-! ### An enum without variants -/

/-- A program with `enum Empty {}`. -/
def emptyEnumKind : TurfType → Kind
  | .int => .int
  | .int32 => .int32
  | .char => .char
  | .bool => .bool
  | .string => .string
  | .double => .double
  | .reference p => .reference p
  | .named name => if name = "Empty" then .enum [] else .other
  | _ => .other

inductive IsEmptyEnumType : TurfType → Prop
  | int : IsEmptyEnumType .int
  | int32 : IsEmptyEnumType .int32
  | char : IsEmptyEnumType .char
  | bool : IsEmptyEnumType .bool
  | string : IsEmptyEnumType .string
  | double : IsEmptyEnumType .double
  | empty : IsEmptyEnumType (.named "Empty")

theorem emptyEnumKind_named {name : String} {k : Kind} (h : emptyEnumKind (.named name) = k)
    (hk : k ≠ .other) : name = "Empty" ∧ k = .enum [] := by
  change (if name = "Empty" then Kind.enum [] else .other) = k at h
  split_ifs at h with hname
  · exact ⟨hname, h.symm⟩
  · exact absurd h.symm hk

theorem no_variants : ∀ (_ : String) (variants : List ErrorVariant), none = some variants →
    ∀ v ∈ variants, ':' ∉ v.name.toList := by
  intro _ variants h
  cases h

def emptyEnumTypes : TypeTable := {
  kind := emptyEnumKind
  errorVariants := fun _ => none
  IsType := IsEmptyEnumType
  isType_int := .int
  isType_int32 := .int32
  isType_char := .char
  isType_bool := .bool
  isType_string := .string
  isType_double := .double
  isType_named := fun name h => by
    obtain ⟨rfl, -⟩ := emptyEnumKind_named rfl fun hk => by rw [hk] at h; cases h
    exact .empty
  isType_field := fun τ st h => by
    cases τ with
    | named name => cases (emptyEnumKind_named h nofun).2
    | _ => cases h
  isType_payload := nofun
  kind_int := rfl
  kind_int32 := rfl
  kind_char := rfl
  kind_bool := rfl
  kind_string := rfl
  kind_double := rfl
  kind_reference := fun _ => rfl
  kind_congr := fun A B hA hB hname _ => by
    cases hA <;> cases hB <;> first | rfl | exact absurd hname (by decide)
  closed := fun τ h => by cases h <;> rfl
  nominal := fun τ h _ => by cases h <;> rfl
  not_opaque := fun τ h _ => by cases h <;> rfl
  not_base := fun τ base args _ _ h => by cases h
  string_name := fun τ h => by
    cases τ with
    | named name => cases (emptyEnumKind_named h nofun).2
    | _ => first | rfl | cases h
  struct_pointee := fun τ st h => by
    cases τ with
    | named name => cases (emptyEnumKind_named h nofun).2
    | _ => cases h
  userError_variants := fun τ variants h => by
    cases τ with
    | named name => cases (emptyEnumKind_named h nofun).2
    | _ => cases h
  enum_nodup := fun τ variants h => by
    cases τ with
    | named name =>
      cases (emptyEnumKind_named h nofun).2
      exact List.nodup_nil
    | _ => cases h
  variant_identifier := no_variants }

/-- A machine with nothing in its memory but numbers. -/
def plainMachine : Machine emptyEnumTypes Unit where
  heap := { load := fun _ _ => .i64 0, typeAt := fun _ => .int, typed := fun _ _ => .int rfl }
  unboxFromI64Slot _ bits _ := .i64 bits
  castToType _ v := v
  undef _ := .i64 0
  bindError _ _ s := s
  bindArm _ s := s
  declareLoopVar _ _ s := s
  inRange _ _ _ := false
  nextElement _ _ _ _ := none

/-- A call of type `!int` that fails. -/
def failingCall : Expr emptyEnumTypes Unit := .node [] fun _ s => some (.fallible ⟨false, 0, 0⟩, s)

def intCall : RecoverTypes := ⟨some (.errorUnion .int), none, false, false⟩

/-- `compare b { matches true: return 1; matches false: return 2; done }` -/
def boolBlock : Expr emptyEnumTypes Unit :=
  .block [.compare (.node [] fun _ s => some (.val (.i1 true), s)) .bool false
    (.arm ⟨[⟨.value (.bool true), none⟩]⟩ (.block [.returnVoid])
      (.arm ⟨[⟨.value (.bool false), none⟩]⟩ (.block [.returnVoid]) .noOtherBody))]

/-- `compare e {}` for an `e` of type `Empty`. -/
def emptyBlock : Expr emptyEnumTypes Unit :=
  .block [.compare (.node [] fun _ s => some (.val (.i64 0), s)) (.named "Empty") false .noOtherBody]

end Recover

end TurfLang
