import TurfLang.Sema.Overload

/-!
# What the choice of an overload depends on

The candidates that take the arguments are the same in every order, as long as no two of them
would make another type of one array literal. An exact candidate is then found in every order
where the loop looks for one; otherwise the loops take the first in the order of declaration.
-/

namespace TurfLang.Overload

open TypeWalk

/-! ### What is tried on an array literal -/

/-- A candidate's parameter takes this argument only by making another type of a literal. -/
def takesLiteral (isExtern : Bool) (arg : Argument) (paramTy : TurfType) : Bool :=
  match arg.type with
  | none => false
  | some argTy => !fitsAsItIs isExtern arg argTy paramTy &&
      (arrayLiteralWidensToNullableRefs arg arg.type paramTy).isSome

/-- A literal has the type it was found to have, or an array of nullable references was made of
it. -/
def Retyped (arg : Argument) (current : Option TurfType) : Prop :=
  current = arg.type ∨ ∃ p size, current = some (.array (.nullableReference p) size)

theorem arrayLiteralWidens_of_nullable (arg : Argument) (p paramTy : TurfType) (size : ArraySize) :
    arrayLiteralWidensToNullableRefs arg (some (.array (.nullableReference p) size)) paramTy =
      none := by
  unfold arrayLiteralWidensToNullableRefs
  split <;> rfl

theorem nullable_of_arrayLiteralWidens {arg : Argument} {current : Option TurfType}
    {paramTy widened : TurfType}
    (h : arrayLiteralWidensToNullableRefs arg current paramTy = some widened) :
    ∃ p size, widened = .array (.nullableReference p) size := by
  unfold arrayLiteralWidensToNullableRefs at h
  split at h
  · split at h
    · split at h
      · exact ⟨_, _, (Option.some.inj h).symm⟩
      · cases h
    · split at h
      · exact ⟨_, _, (Option.some.inj h).symm⟩
      · cases h
    · cases h
  · cases h

theorem retyped_argumentFits {arg : Argument} {current : Option TurfType} (h : Retyped arg current)
    (isExtern : Bool) (paramTy : TurfType) :
    Retyped arg (argumentFits isExtern arg paramTy current).2 := by
  unfold argumentFits
  split
  · exact h
  · split
    · exact h
    · split
      · obtain ⟨p, size, rfl⟩ := nullable_of_arrayLiteralWidens ‹_›
        exact .inr ⟨p, size, rfl⟩
      · exact h

/-- A parameter that does not take the literal finds the same whatever was made of it, and makes
nothing of it. -/
theorem argumentFits_of_retyped {arg : Argument} {current : Option TurfType}
    (h : Retyped arg current) {isExtern : Bool} {paramTy : TurfType}
    (htakes : takesLiteral isExtern arg paramTy = false) :
    argumentFits isExtern arg paramTy current =
      ((argumentFits isExtern arg paramTy arg.type).1, current) := by
  unfold argumentFits takesLiteral at *
  cases hty : arg.type with
  | none => rfl
  | some argTy =>
    simp only [hty] at htakes ⊢
    by_cases hfit : fitsAsItIs isExtern arg argTy paramTy = true
    · simp [hfit]
    · have hnone : arrayLiteralWidensToNullableRefs arg (some argTy) paramTy = none := by
        simpa [hfit] using htakes
      simp only [hfit, hnone, Bool.false_eq_true, if_false]
      rcases h with rfl | ⟨p, size, rfl⟩
      · rw [hty, hnone]
      · rw [arrayLiteralWidens_of_nullable]

/-- Nothing was made of the literals that these parameters take. -/
def Untouched (isExtern : Bool) : List Argument → List TurfType → List (Option TurfType) → Prop
  | arg :: args, paramTy :: paramTys, current :: currents =>
    (takesLiteral isExtern arg paramTy = true → current = arg.type) ∧
      Untouched isExtern args paramTys currents
  | _, _, _ => True

/-- No literal is taken by parameters of both kinds. -/
def Apart (isExtern isExtern' : Bool) : List Argument → List TurfType → List TurfType → Prop
  | arg :: args, paramTy :: paramTys, paramTy' :: paramTys' =>
    ¬(takesLiteral isExtern arg paramTy = true ∧ takesLiteral isExtern' arg paramTy' = true) ∧
      Apart isExtern isExtern' args paramTys paramTys'
  | _, _, _ => True

theorem Apart.symm {isExtern isExtern' : Bool} {args : List Argument}
    {paramTys paramTys' : List TurfType} (h : Apart isExtern isExtern' args paramTys paramTys') :
    Apart isExtern' isExtern args paramTys' paramTys := by
  induction args generalizing paramTys paramTys' with
  | nil => cases paramTys <;> cases paramTys' <;> trivial
  | cons arg args ih =>
    cases paramTys with
    | nil => cases paramTys' <;> trivial
    | cons paramTy paramTys =>
      cases paramTys' with
      | nil => trivial
      | cons paramTy' paramTys' => exact ⟨fun hboth => h.1 hboth.symm, ih h.2⟩

/-- The arguments fit the parameters, none of them tried on others before. -/
def fits (isExtern : Bool) (args : List Argument) (paramTys : List TurfType) : Bool :=
  (argumentsFit isExtern args paramTys (args.map (·.type))).1

section

attribute [local simp] argumentsFit Untouched Apart

variable {isExtern isExtern' : Bool} {arg : Argument} {args : List Argument}
  {paramTy : TurfType} {paramTys paramTys' : List TurfType} {current : Option TurfType}
  {currents : List (Option TurfType)}

theorem argumentsFit_cons_fst :
    (argumentsFit isExtern (arg :: args) (paramTy :: paramTys) (current :: currents)).1 =
      ((argumentFits isExtern arg paramTy current).1 &&
        (argumentsFit isExtern args paramTys currents).1) := by
  rw [argumentsFit]
  cases (argumentFits isExtern arg paramTy current).1 <;> simp

theorem argumentsFit_cons_snd :
    (argumentsFit isExtern (arg :: args) (paramTy :: paramTys) (current :: currents)).2 =
      (argumentFits isExtern arg paramTy current).2 ::
        if (argumentFits isExtern arg paramTy current).1 then
          (argumentsFit isExtern args paramTys currents).2
        else currents := by
  rw [argumentsFit]
  cases (argumentFits isExtern arg paramTy current).1 <;> simp

theorem retyped_argumentsFit (h : List.Forall₂ Retyped args currents) :
    List.Forall₂ Retyped args (argumentsFit isExtern args paramTys currents).2 := by
  induction h generalizing paramTys with
  | nil => simp
  | cons hcurrent hcurrents ih =>
    cases paramTys with
    | nil => exact .cons hcurrent hcurrents
    | cons paramTy paramTys =>
      rw [argumentsFit_cons_snd]
      refine .cons (retyped_argumentFits hcurrent _ _) ?_
      split
      · exact ih
      · exact hcurrents

/-- Where nothing was made of the literals it takes, a candidate fits as it would have at first. -/
theorem argumentsFit_of_untouched (h : List.Forall₂ Retyped args currents)
    (huntouched : Untouched isExtern args paramTys currents) :
    (argumentsFit isExtern args paramTys currents).1 = fits isExtern args paramTys := by
  unfold fits
  induction h generalizing paramTys with
  | nil => rfl
  | @cons arg current args currents hcurrent _ ih =>
    cases paramTys with
    | nil => rfl
    | cons paramTy paramTys =>
      obtain ⟨hhead, htail⟩ := huntouched
      rw [List.map_cons, argumentsFit_cons_fst, argumentsFit_cons_fst, ih htail]
      cases htakes : takesLiteral isExtern arg paramTy with
      | true => rw [hhead htakes]
      | false => rw [argumentFits_of_retyped hcurrent htakes]

/-- Trying a candidate leaves alone the literals that another one takes. -/
theorem untouched_argumentsFit (h : List.Forall₂ Retyped args currents)
    (hapart : Apart isExtern isExtern' args paramTys paramTys')
    (huntouched : Untouched isExtern args paramTys currents) :
    Untouched isExtern args paramTys (argumentsFit isExtern' args paramTys' currents).2 := by
  induction h generalizing paramTys paramTys' with
  | nil => cases paramTys <;> trivial
  | @cons arg current args currents hcurrent _ ih =>
    cases paramTys' with
    | nil => exact huntouched
    | cons paramTy' paramTys' =>
      cases paramTys with
      | nil => rw [argumentsFit_cons_snd]; trivial
      | cons paramTy paramTys =>
        obtain ⟨hhead, htail⟩ := huntouched
        obtain ⟨hnot, hapart⟩ := hapart
        rw [argumentsFit_cons_snd]
        refine ⟨fun htakes => ?_, ?_⟩
        · have htakes' : takesLiteral isExtern' arg paramTy' = false :=
            Bool.eq_false_iff.mpr fun h' => hnot ⟨htakes, h'⟩
          rw [argumentFits_of_retyped hcurrent htakes', hhead htakes]
        · split
          · exact ih hapart htail
          · exact htail

end

/-- Candidates of which no two take the same literal are tried each as if it were the first. -/
theorem typeMatches_eq_filter {isExtern : FunctionSymbol → Bool}
    {paramTypes : FunctionSymbol → List TurfType} {args : List Argument}
    {candidates : List FunctionSymbol} {currents : List (Option TurfType)}
    (hapart : candidates.Pairwise fun c d =>
      Apart (isExtern c) (isExtern d) args (paramTypes c) (paramTypes d))
    (hret : List.Forall₂ Retyped args currents)
    (huntouched : ∀ c ∈ candidates, Untouched (isExtern c) args (paramTypes c) currents) :
    typeMatches isExtern paramTypes args candidates currents =
      candidates.filter fun c => fits (isExtern c) args (paramTypes c) := by
  induction candidates generalizing currents with
  | nil => rfl
  | cons c cs ih =>
    obtain ⟨hc, hcs⟩ := List.pairwise_cons.mp hapart
    obtain ⟨hhead, htail⟩ := List.forall_mem_cons.mp huntouched
    have hrest := ih hcs (retyped_argumentsFit hret) fun d hd =>
      untouched_argumentsFit hret (hc d hd).symm (htail d hd)
    rw [typeMatches, argumentsFit_of_untouched hret hhead, hrest, List.filter_cons]

theorem retyped_start (args : List Argument) :
    List.Forall₂ Retyped args (args.map (·.type)) := by
  induction args with
  | nil => exact .nil
  | cons arg args ih => exact .cons (.inl rfl) ih

theorem untouched_start (isExtern : Bool) (args : List Argument) (paramTys : List TurfType) :
    Untouched isExtern args paramTys (args.map (·.type)) := by
  induction args generalizing paramTys with
  | nil => cases paramTys <;> trivial
  | cons arg args ih =>
    cases paramTys with
    | nil => trivial
    | cons paramTy paramTys => exact ⟨fun _ => rfl, ih paramTys⟩

/-! ### The forms of a call -/

/-- How a call is written, with what the selection reads of it. -/
inductive CallForm
  /-- A free call, a call qualified by a module with `::`, and a constructor. -/
  | funcCall
  /-- A call qualified by a module with a dot. -/
  | moduleCall
  | structMethod (isStatic : Bool) (subst : SubstMap)
  | ufcs (receiver : TurfType) (currentModule : String)

/-- The candidate that is chosen, if one is. -/
def Outcome.target? : Outcome → Option FunctionSymbol
  | .chosen c => some c
  | _ => none

theorem Outcome.target?_eq_some {o : Outcome} {c : FunctionSymbol} :
    o.target? = some c ↔ o = .chosen c := by
  cases o <;> simp [target?]

section

variable (isResolvedIdentity : String → Bool)

/-- The choice a call of this form makes among candidates in this order. -/
def choose : CallForm → Call → List FunctionSymbol → Outcome
  | .funcCall => visitFuncCall isResolvedIdentity
  | .moduleCall => visitModuleCall
  | .structMethod isStatic subst => visitStructMethodCall isResolvedIdentity isStatic subst
  | .ufcs receiver currentModule => tryUFCSFallback isResolvedIdentity receiver currentModule

/-- The parameters that the arguments in the parentheses are compared with. -/
def comparedParams (call : Call) : CallForm → FunctionSymbol → List TurfType
  | .funcCall, c => funcCallParams isResolvedIdentity call c
  | .moduleCall, c => c.paramTypes
  | .structMethod isStatic subst, c => methodParams isResolvedIdentity isStatic subst c
  | .ufcs receiver _, c => (ufcsParams isResolvedIdentity receiver call c).tail

/-- The form of a call admits the conversion of a string for an `extern` candidate. -/
def comparesExtern : CallForm → FunctionSymbol → Bool
  | .funcCall, c | .moduleCall, c => c.isExtern
  | _, _ => false

/-- What a candidate needs besides parameters that take the arguments in the parentheses. -/
def admits (call : Call) : CallForm → FunctionSymbol → Bool
  | .funcCall, c => arityMatches call c && takesWritten call c
  | .moduleCall, c => c.arity = call.args.length
  | .structMethod isStatic _, c =>
    c.arity = (if isStatic then call.args.length else call.args.length + 1) &&
      (isStatic || takesSelf c)
  | .ufcs receiver currentModule, c =>
    (c.isPublic || c.sourceModule = currentModule) &&
      (call.written.isEmpty || (c.arity = call.args.length + 1 && takesWritten call c)) &&
        receiverFits isResolvedIdentity receiver call c

/-- A candidate that declares just the receiver is better than one that takes it as an array of
any size. -/
def beaten (call : Call) (candidates : List FunctionSymbol) : CallForm → FunctionSymbol → Bool
  | .ufcs receiver currentModule, c =>
    !exactReceiver isResolvedIdentity receiver call c && candidates.any fun d =>
      admits isResolvedIdentity call (.ufcs receiver currentModule) d &&
        exactReceiver isResolvedIdentity receiver call d
  | _, _ => false

/-- A candidate can be called: it takes the receiver and the arguments. -/
def viable (form : CallForm) (call : Call) (candidates : List FunctionSymbol)
    (c : FunctionSymbol) : Bool :=
  admits isResolvedIdentity call form c && !beaten isResolvedIdentity call candidates form c &&
    fits (comparesExtern form c) call.args (comparedParams isResolvedIdentity call form c)

/-- What the candidates take of the literals among the arguments, no two take of the same one. -/
def LiteralsApart (form : CallForm) (call : Call) (candidates : List FunctionSymbol) : Prop :=
  candidates.Pairwise fun c d => Apart (comparesExtern form c) (comparesExtern form d) call.args
    (comparedParams isResolvedIdentity call form c) (comparedParams isResolvedIdentity call form d)

/-- The choice among the candidates that can be called. -/
def pick (call : Call) : CallForm → List FunctionSymbol → Option FunctionSymbol
  | .funcCall, matching | .moduleCall, matching => bestMatch call.args matching
  | .structMethod _ _, matching => matching.head?
  | .ufcs receiver _, matching => (ufcsBest isResolvedIdentity receiver call matching).target?

end

section

attribute [local simp] viable beaten bestMatch visitFuncCall visitModuleCall tryUFCSFallback

variable {isResolvedIdentity : String → Bool} {form : CallForm} {call : Call}
  {candidates : List FunctionSymbol}

theorem bestMatch_eq_none {args : List Argument} {matching : List FunctionSymbol} :
    bestMatch args matching = none ↔ matching = [] := by
  cases matching with
  | nil => simp [bestMatch]
  | cons c cs =>
    rw [bestMatch]
    split <;> simp

/-- A filter by types after another filter. -/
theorem typeMatches_filter (hapart : LiteralsApart isResolvedIdentity form call candidates)
    (keep : FunctionSymbol → Bool) :
    typeMatches (comparesExtern form) (comparedParams isResolvedIdentity call form) call.args
        (candidates.filter keep) (call.args.map (·.type)) =
      candidates.filter fun c => keep c &&
        fits (comparesExtern form c) call.args (comparedParams isResolvedIdentity call form c) := by
  rw [typeMatches_eq_filter (hapart.sublist List.filter_sublist) (retyped_start _)
    fun c _ => untouched_start _ _ _, List.filter_filter]
  simp only [Bool.and_comm]

theorem target?_match (best : Option FunctionSymbol) (error : CallError) :
    Outcome.target? (match best with
      | some best => .chosen best
      | none => .reported error) = best := by
  cases best <;> rfl

theorem target_visitFuncCall (hapart : LiteralsApart isResolvedIdentity .funcCall call candidates) :
    (visitFuncCall isResolvedIdentity call candidates).target? =
      bestMatch call.args
        (candidates.filter (viable isResolvedIdentity .funcCall call candidates)) := by
  have hgeneric : (candidates.filter (arityMatches call)).filter (takesWritten call) =
      candidates.filter (admits isResolvedIdentity call .funcCall) := by
    rw [List.filter_filter]
    exact List.filter_congr fun c _ => Bool.and_comm ..
  have hmatching : typeMatches (·.isExtern) (funcCallParams isResolvedIdentity call) call.args
      (candidates.filter (admits isResolvedIdentity call .funcCall)) (call.args.map (·.type)) =
        candidates.filter (viable isResolvedIdentity .funcCall call candidates) := by
    refine (typeMatches_filter hapart _).trans (List.filter_congr fun c _ => ?_)
    simp [viable, beaten]
  simp only [visitFuncCall, hgeneric, hmatching]
  split_ifs with hofArity hgen
  · -- no candidate of this arity
    have hnil : candidates.filter (admits isResolvedIdentity call .funcCall) = [] := by
      rw [← hgeneric, List.isEmpty_iff.mp hofArity, List.filter_nil]
    rw [← hmatching, hnil]
    rfl
  · rw [← hmatching, List.isEmpty_iff.mp hgen]
    rfl
  · exact target?_match _ _
  · exact target?_match _ _

theorem target_visitModuleCall
    (hapart : LiteralsApart isResolvedIdentity .moduleCall call candidates) :
    (visitModuleCall call candidates).target? =
      bestMatch call.args
        (candidates.filter (viable isResolvedIdentity .moduleCall call candidates)) := by
  have hmatching : typeMatches (·.isExtern) (·.paramTypes) call.args
      (candidates.filter fun c => c.arity = call.args.length) (call.args.map (·.type)) =
        candidates.filter (viable isResolvedIdentity .moduleCall call candidates) := by
    refine (typeMatches_filter hapart _).trans (List.filter_congr fun c _ => ?_)
    simp [viable, beaten, admits]
  simp only [visitModuleCall, hmatching]
  split_ifs with hempty hofArity
  · rw [List.isEmpty_iff.mp hempty]
    rfl
  · rw [← hmatching, List.isEmpty_iff.mp hofArity]
    rfl
  · exact target?_match _ _

theorem target_visitStructMethodCall {isStatic : Bool} {subst : SubstMap}
    (hapart : LiteralsApart isResolvedIdentity (.structMethod isStatic subst) call candidates) :
    (visitStructMethodCall isResolvedIdentity isStatic subst call candidates).target? =
      (candidates.filter
        (viable isResolvedIdentity (.structMethod isStatic subst) call candidates)).head? := by
  have hmatching : typeMatches (fun _ => false) (methodParams isResolvedIdentity isStatic subst)
      call.args (candidates.filter (admits isResolvedIdentity call (.structMethod isStatic subst)))
        (call.args.map (·.type)) =
          candidates.filter
            (viable isResolvedIdentity (.structMethod isStatic subst) call candidates) := by
    refine (typeMatches_filter hapart _).trans (List.filter_congr fun c _ => ?_)
    simp [viable, beaten]
  rw [← hmatching]
  simp only [visitStructMethodCall]
  split
  · next best rest hbest => exact (congrArg List.head? hbest).symm
  · next hnil => exact (congrArg List.head? hnil).symm

section

variable {receiver : TurfType} {currentModule : String}

/-- The candidates of a call with a dot that are looked at for their receiver. -/
def looksAt (currentModule : String) (call : Call) (c : FunctionSymbol) : Bool :=
  (c.isPublic || c.sourceModule = currentModule) &&
    (call.written.isEmpty || (c.arity = call.args.length + 1 && takesWritten call c))

theorem receiverMatches_eq_filter :
    receiverMatches isResolvedIdentity receiver call
        (candidates.filter (looksAt currentModule call)) =
      candidates.filter fun c => admits isResolvedIdentity call (.ufcs receiver currentModule) c &&
        !beaten isResolvedIdentity call candidates (.ufcs receiver currentModule) c := by
  have hfitting : (candidates.filter (looksAt currentModule call)).filter
      (receiverFits isResolvedIdentity receiver call) =
        candidates.filter (admits isResolvedIdentity call (.ufcs receiver currentModule)) := by
    rw [List.filter_filter]
    exact List.filter_congr fun c _ => Bool.and_comm ..
  unfold receiverMatches
  simp only [hfitting]
  split_ifs with hexact
  · -- no receiver is exact, so none is beaten
    refine List.filter_congr fun c _ => ?_
    have hany : (candidates.any fun d =>
        admits isResolvedIdentity call (.ufcs receiver currentModule) d &&
          exactReceiver isResolvedIdentity receiver call d) = false := by
      rw [List.isEmpty_iff, List.filter_filter, List.filter_eq_nil_iff] at hexact
      rw [List.any_eq_false]
      intro d hd
      rw [Bool.and_comm]
      exact hexact d hd
    simp [beaten, hany]
  · rw [List.filter_filter]
    refine List.filter_congr fun c _ => ?_
    have hany : (candidates.any fun d =>
        admits isResolvedIdentity call (.ufcs receiver currentModule) d &&
          exactReceiver isResolvedIdentity receiver call d) = true := by
      rw [List.isEmpty_iff, List.filter_filter, List.filter_eq_nil_iff] at hexact
      rw [List.any_eq_true]
      push Not at hexact
      obtain ⟨d, hd, hboth⟩ := hexact
      exact ⟨d, hd, by rwa [Bool.and_comm]⟩
    rw [Bool.and_comm]
    simp [beaten, hany]

/-- The candidates whose receiver fits, and those of them that take the arguments. -/
theorem typeMatches_receiverMatches
    (hapart : LiteralsApart isResolvedIdentity (.ufcs receiver currentModule) call candidates) :
    typeMatches (fun _ => false)
        (fun c => (ufcsParams isResolvedIdentity receiver call c).tail) call.args
          (receiverMatches isResolvedIdentity receiver call
            (candidates.filter (looksAt currentModule call))) (call.args.map (·.type)) =
      candidates.filter
        (viable isResolvedIdentity (.ufcs receiver currentModule) call candidates) := by
  rw [@receiverMatches_eq_filter _ _ _ _ currentModule]
  exact typeMatches_filter hapart _

theorem tryUFCSFallback_cases
    (hapart : LiteralsApart isResolvedIdentity (.ufcs receiver currentModule) call candidates) :
    tryUFCSFallback isResolvedIdentity receiver currentModule call candidates =
        ufcsBest isResolvedIdentity receiver call (candidates.filter
          (viable isResolvedIdentity (.ufcs receiver currentModule) call candidates)) ∨
      candidates.filter
          (viable isResolvedIdentity (.ufcs receiver currentModule) call candidates) = [] ∧
        (tryUFCSFallback isResolvedIdentity receiver currentModule call candidates).target? =
          none := by
  have hmatching := typeMatches_receiverMatches hapart
  have hvisible : (if call.written.isEmpty then
        candidates.filter fun c => c.isPublic || c.sourceModule = currentModule
      else ((candidates.filter fun c => c.isPublic || c.sourceModule = currentModule).filter
        fun c => c.arity = call.args.length + 1).filter (takesWritten call)) =
      candidates.filter (looksAt currentModule call) := by
    split_ifs with hwritten
    · exact List.filter_congr fun c _ => by simp [looksAt, hwritten]
    · rw [List.filter_filter, List.filter_filter]
      refine List.filter_congr fun c _ => ?_
      simp only [looksAt, hwritten, Bool.false_or, Bool.and_comm]
  simp only [tryUFCSFallback, hvisible]
  split_ifs with hgeneric hempty hhidden
  · -- the written type arguments fit no candidate
    refine .inr ⟨?_, rfl⟩
    obtain ⟨hwritten, -, hnil⟩ := hgeneric
    rw [← hmatching, ← hvisible, if_neg (by simpa using hwritten), List.isEmpty_iff.mp hnil]
    rfl
  · exact .inr ⟨by rw [← hmatching, List.isEmpty_iff.mp hempty]; rfl, rfl⟩
  · exact .inr ⟨by rw [← hmatching, List.isEmpty_iff.mp hempty]; rfl, rfl⟩
  · exact .inl (by rw [hmatching])

end

/-- The choice of a call is the choice among the candidates that can be called. -/
theorem target_choose (hapart : LiteralsApart isResolvedIdentity form call candidates) :
    (choose isResolvedIdentity form call candidates).target? =
      pick isResolvedIdentity call form
        (candidates.filter (viable isResolvedIdentity form call candidates)) := by
  cases form with
  | funcCall => exact target_visitFuncCall hapart
  | moduleCall => exact target_visitModuleCall hapart
  | structMethod isStatic subst => exact target_visitStructMethodCall hapart
  | ufcs receiver currentModule =>
    rcases tryUFCSFallback_cases hapart with h | ⟨hnil, hnone⟩
    · exact congrArg Outcome.target? h
    · rw [hnil]
      exact hnone

end

/-! ### Exact candidates -/

section

variable (isResolvedIdentity : String → Bool)

/-- The parameters as they are written. -/
def writtenParams (call : Call) : CallForm → FunctionSymbol → List TurfType
  | .funcCall, c | .moduleCall, c => c.paramTypes
  | form, c => comparedParams isResolvedIdentity call form c

/-- The parameters with the type parameters of the candidate bound by the arguments; those a call
with a dot compares are bound already. -/
def boundParams (call : Call) (form : CallForm) (c : FunctionSymbol) : List TurfType :=
  let params := comparedParams isResolvedIdentity call form c
  match form with
  | .ufcs _ _ => params
  | form =>
    if c.typeParams.isEmpty then writtenParams isResolvedIdentity call form c
    else
      let s := (params.zip (call.args.map (·.type))).foldl (fun s entry =>
        match entry.2 with
        | none => s
        | some actual => unify entry.1 actual s) []
      params.map (substituteReturnType isResolvedIdentity s)

/-- The parameters, as they are written or bound, have the very types of the arguments. -/
def exactArgs (call : Call) (form : CallForm) (c : FunctionSymbol) : Bool :=
  exactAll (writtenParams isResolvedIdentity call form c) call.args ||
    exactAll (boundParams isResolvedIdentity call form c) call.args

/-- The receiver has the very type that is declared for it. -/
def exactSelf (call : Call) : CallForm → FunctionSymbol → Bool
  | .ufcs receiver _, c => exactReceiver isResolvedIdentity receiver call c
  | _, _ => true

/-- A candidate can be called and matches every parameter exactly. -/
def MatchesExactly (form : CallForm) (call : Call) (candidates : List FunctionSymbol)
    (c : FunctionSymbol) : Prop :=
  viable isResolvedIdentity form call candidates c = true ∧
    exactSelf isResolvedIdentity call form c = true ∧
      exactArgs isResolvedIdentity call form c = true

/-- Overloads that may coexist: the symbol table keeps one symbol of a module for each list of
parameter types. -/
def Coexist (c d : FunctionSymbol) : Prop :=
  ¬(c.sourceModule = d.sourceModule ∧ c.arity = d.arity ∧
    c.paramTypes.map (·.getName) = d.paramTypes.map (·.getName))

/-- The choice of a call does not depend on the order: the one exact candidate is chosen;
otherwise one that can be called is, the same in every order, or none is in any. -/
def OrderIndependent (form : CallForm) (call : Call) (candidates : List FunctionSymbol) : Prop :=
  (∀ x ∈ candidates,
    (∀ c ∈ candidates, MatchesExactly isResolvedIdentity form call candidates c ↔ c = x) →
      ∀ order, order.Perm candidates → choose isResolvedIdentity form call order = .chosen x) ∧
  ((¬∃ x ∈ candidates,
    ∀ c ∈ candidates, MatchesExactly isResolvedIdentity form call candidates c ↔ c = x) →
      (∃ x ∈ candidates, viable isResolvedIdentity form call candidates x = true ∧
        ∀ order, order.Perm candidates → choose isResolvedIdentity form call order = .chosen x) ∨
      ∀ order, order.Perm candidates →
        (choose isResolvedIdentity form call order).target? = none)

/-- The form of a call finds this candidate when it matches exactly. -/
def LooksForExact : CallForm → FunctionSymbol → Prop
  | .funcCall, c | .moduleCall, c => c.typeParams = []
  | .structMethod _ _, _ => False
  | .ufcs _ _, _ => True

def CallForm.isUfcs : CallForm → Bool
  | .ufcs _ _ => true
  | _ => false

/-- What the choice of a call is, in every order of declaration. -/
structure Choice (form : CallForm) (call : Call) (candidates : List FunctionSymbol) : Prop where
  noneFits : (∀ c ∈ candidates, viable isResolvedIdentity form call candidates c = false) →
    ∀ order, order.Perm candidates → (choose isResolvedIdentity form call order).target? = none
  only : ∀ x ∈ candidates,
    (∀ c ∈ candidates, viable isResolvedIdentity form call candidates c = true ↔ c = x) →
      ∀ order, order.Perm candidates → choose isResolvedIdentity form call order = .chosen x
  exact : ∀ x ∈ candidates, LooksForExact form x →
    (∀ c ∈ candidates, MatchesExactly isResolvedIdentity form call candidates c ↔ c = x) →
      ∀ order, order.Perm candidates → choose isResolvedIdentity form call order = .chosen x
  /-- Where nothing is exact, the order decides. -/
  first : (∀ c ∈ candidates, viable isResolvedIdentity form call candidates c = true →
      exactArgs isResolvedIdentity call form c = false) →
    ∀ order, order.Perm candidates → (choose isResolvedIdentity form call order).target? =
      order.find? (viable isResolvedIdentity form call candidates)
  several : form.isUfcs = true → ∀ c ∈ candidates, ∀ d ∈ candidates, c ≠ d →
    MatchesExactly isResolvedIdentity form call candidates c →
    MatchesExactly isResolvedIdentity form call candidates d →
      (∀ order, order.Perm candidates →
        choose isResolvedIdentity form call order = .reported .ambiguousCall) ∨
      ∃ x ∈ candidates, ∀ order, order.Perm candidates →
        choose isResolvedIdentity form call order = .chosen x

end

section

variable {isResolvedIdentity : String → Bool} {form : CallForm} {call : Call}
  {candidates order : List FunctionSymbol}

theorem viable_perm (h : order.Perm candidates) :
    viable isResolvedIdentity form call order = viable isResolvedIdentity form call candidates := by
  funext c
  unfold viable beaten
  cases form with
  | ufcs receiver currentModule =>
    simp only [h.any_eq]
  | _ => rfl

theorem literalsApart_perm (h : order.Perm candidates)
    (hapart : LiteralsApart isResolvedIdentity form call candidates) :
    LiteralsApart isResolvedIdentity form call order :=
  (h.pairwise_iff Apart.symm).mpr hapart

/-- The choice in another order of the same candidates. -/
theorem target_choose_perm (hapart : LiteralsApart isResolvedIdentity form call candidates)
    (h : order.Perm candidates) :
    (choose isResolvedIdentity form call order).target? = pick isResolvedIdentity call form
      (order.filter (viable isResolvedIdentity form call candidates)) := by
  rw [target_choose (literalsApart_perm h hapart), viable_perm h]

theorem nodup_of_coexist (h : candidates.Pairwise Coexist) : candidates.Nodup :=
  h.imp fun hcoexist heq => hcoexist (by rw [heq]; exact ⟨rfl, rfl, rfl⟩)

theorem filter_eq_singleton {p : FunctionSymbol → Bool} {x : FunctionSymbol} (hnodup : order.Nodup)
    (hx : x ∈ order) (h : ∀ c ∈ order, p c = true ↔ c = x) : order.filter p = [x] := by
  rw [← List.perm_singleton, List.perm_ext_iff_of_nodup (hnodup.filter p) (List.nodup_singleton x)]
  intro c
  rw [List.mem_filter, List.mem_singleton]
  exact ⟨fun ⟨hc, hp⟩ => (h c hc).mp hp, fun heq => heq ▸ ⟨hx, (h x hx).mpr rfl⟩⟩

theorem bestMatch_of_exact {args : List Argument} {matching : List FunctionSymbol}
    {x : FunctionSymbol} (hx : x ∈ matching) (hexact : exactAll x.paramTypes args = true)
    (h : ∀ c ∈ matching, exactAll c.paramTypes args = true → c = x) :
    bestMatch args matching = some x := by
  cases matching with
  | nil => cases hx
  | cons c cs =>
    rw [bestMatch]
    split_ifs with hempty
    · rw [List.isEmpty_iff.mp hempty] at hx
      rw [List.mem_singleton.mp hx]
    · obtain ⟨y, hy⟩ := Option.isSome_iff_exists.mp
        (List.find?_isSome (p := fun d : FunctionSymbol => exactAll d.paramTypes args).mpr
          ⟨x, hx, hexact⟩)
      have hyexact : exactAll y.paramTypes args = true := by simpa using List.find?_some hy
      rw [hy, Option.getD_some, h y (List.mem_of_find?_eq_some hy) hyexact]

theorem bestMatch_of_no_exact {args : List Argument} {matching : List FunctionSymbol}
    (h : ∀ c ∈ matching, exactAll c.paramTypes args = false) :
    bestMatch args matching = matching.head? := by
  cases matching with
  | nil => rfl
  | cons c cs =>
    have hnone : (c :: cs).find? (fun d => exactAll d.paramTypes args) = none :=
      List.find?_eq_none.mpr fun d hd => by simp [h d hd]
    rw [bestMatch, hnone]
    split_ifs <;> rfl

section

attribute [local simp] ufcsBest

variable {receiver : TurfType} {matching : List FunctionSymbol} {x : FunctionSymbol}

/-- The exact candidates of a call with a dot. -/
abbrev exactOf (isResolvedIdentity : String → Bool) (receiver : TurfType) (call : Call)
    (matching : List FunctionSymbol) : List FunctionSymbol :=
  matching.filter fun c => exactAll (ufcsParams isResolvedIdentity receiver call c).tail call.args

theorem ufcsBest_of_exact (h : exactOf isResolvedIdentity receiver call matching = [x]) :
    ufcsBest isResolvedIdentity receiver call matching = .chosen x := by
  simp [ufcsBest, h]

theorem ufcsBest_of_no_exact (h : exactOf isResolvedIdentity receiver call matching = []) :
    (ufcsBest isResolvedIdentity receiver call matching).target? = matching.head? := by
  cases matching with
  | nil => rfl
  | cons c cs => simp [ufcsBest, h, Outcome.target?]

/-- Of several exact candidates, the only one of the receiver's home module is chosen. -/
theorem ufcsBest_of_home (hsome : exactOf isResolvedIdentity receiver call matching ≠ [])
    (h : (exactOf isResolvedIdentity receiver call matching).filter (inHome receiver) = [x]) :
    ufcsBest isResolvedIdentity receiver call matching = .chosen x := by
  by_cases hlen : 1 < (exactOf isResolvedIdentity receiver call matching).length
  · simp [ufcsBest, h, hlen]
  · obtain ⟨y, hy⟩ : ∃ y, exactOf isResolvedIdentity receiver call matching = [y] :=
      List.length_eq_one_iff.mp (by
        have := List.length_pos_iff.mpr hsome
        omega)
    have hx : x ∈ exactOf isResolvedIdentity receiver call matching :=
      List.mem_of_mem_filter (h ▸ List.mem_singleton_self x)
    rw [hy, List.mem_singleton] at hx
    rw [hx]
    exact ufcsBest_of_exact hy

/-- Several exact candidates, of which not just one is of the receiver's home module, make a call
ambiguous. -/
theorem ufcsBest_of_several
    (h : 1 < (exactOf isResolvedIdentity receiver call matching).length)
    (hhome : ((exactOf isResolvedIdentity receiver call matching).filter
      (inHome receiver)).length ≠ 1) :
    ufcsBest isResolvedIdentity receiver call matching = .reported .ambiguousCall := by
  obtain ⟨c, d, rest, hrest⟩ : ∃ c d rest,
      exactOf isResolvedIdentity receiver call matching = c :: d :: rest := by
    cases hexact : exactOf isResolvedIdentity receiver call matching with
    | nil => simp [hexact] at h
    | cons c cs =>
      cases cs with
      | nil => simp [hexact] at h
      | cons d rest => exact ⟨c, d, rest, rfl⟩
  have hnot : ¬(1 < (exactOf isResolvedIdentity receiver call matching).length ∧
      ((exactOf isResolvedIdentity receiver call matching).filter (inHome receiver)).length = 1) :=
    fun hboth => hhome hboth.2
  rw [hrest] at hnot
  simp only [ufcsBest, hrest, if_neg hnot]

end

/-! ### The choice in every order -/

/-- What is exact as it is written matches exactly. -/
theorem exactArgs_of_written {c : FunctionSymbol}
    (h : exactAll (writtenParams isResolvedIdentity call form c) call.args = true) :
    exactArgs isResolvedIdentity call form c = true := by
  rw [exactArgs, h, Bool.true_or]

/-- Where the loop looks for an exact candidate, it finds one by its parameters as written. -/
theorem exactAll_written_of_exactArgs {c : FunctionSymbol} (hlooks : LooksForExact form c)
    (h : exactArgs isResolvedIdentity call form c = true) :
    exactAll (writtenParams isResolvedIdentity call form c) call.args = true := by
  have hbound : boundParams isResolvedIdentity call form c =
      writtenParams isResolvedIdentity call form c := by
    cases form with
    | funcCall | moduleCall => simp [boundParams, show c.typeParams = [] from hlooks]
    | structMethod isStatic subst => exact hlooks.elim
    | ufcs receiver currentModule => rfl
  rwa [exactArgs, hbound, Bool.or_self] at h

theorem pick_nil : pick isResolvedIdentity call form [] = none := by
  cases form <;> rfl

theorem pick_singleton (x : FunctionSymbol) : pick isResolvedIdentity call form [x] = some x := by
  cases form with
  | funcCall | moduleCall | structMethod isStatic subst => rfl
  | ufcs receiver currentModule =>
    cases hexact : exactAll (ufcsParams isResolvedIdentity receiver call x).tail call.args <;>
      simp [pick, ufcsBest, hexact, Outcome.target?]

/-- Nothing being exact, the first is chosen. -/
theorem pick_of_no_exact {matching : List FunctionSymbol}
    (h : ∀ c ∈ matching, exactArgs isResolvedIdentity call form c = false) :
    pick isResolvedIdentity call form matching = matching.head? := by
  have hwritten : ∀ c ∈ matching,
      exactAll (writtenParams isResolvedIdentity call form c) call.args = false := fun c hc =>
    Bool.eq_false_iff.mpr fun htrue =>
      Bool.eq_false_iff.mp (h c hc) (exactArgs_of_written htrue)
  cases form with
  | funcCall | moduleCall => exact bestMatch_of_no_exact hwritten
  | structMethod isStatic subst => rfl
  | ufcs receiver currentModule =>
    exact ufcsBest_of_no_exact
      (List.filter_eq_nil_iff.mpr fun c hc => Bool.eq_false_iff.mp (hwritten c hc))

/-- The one exact candidate is chosen where the loop looks for it. -/
theorem pick_of_exact {matching : List FunctionSymbol} {x : FunctionSymbol}
    (hnodup : matching.Nodup) (hx : x ∈ matching) (hlooks : LooksForExact form x)
    (hexact : exactArgs isResolvedIdentity call form x = true)
    (h : ∀ c ∈ matching, exactArgs isResolvedIdentity call form c = true → c = x) :
    pick isResolvedIdentity call form matching = some x := by
  have hwritten := exactAll_written_of_exactArgs hlooks hexact
  have hunique : ∀ c ∈ matching,
      exactAll (writtenParams isResolvedIdentity call form c) call.args = true → c = x :=
    fun c hc hc' => h c hc (exactArgs_of_written hc')
  cases form with
  | funcCall | moduleCall => exact bestMatch_of_exact hx hwritten hunique
  | structMethod isStatic subst => exact hlooks.elim
  | ufcs receiver currentModule =>
    have hone : exactOf isResolvedIdentity receiver call matching = [x] :=
      filter_eq_singleton hnodup hx fun c hc => ⟨hunique c hc, fun heq => heq ▸ hwritten⟩
    rw [pick, ufcsBest_of_exact hone, Outcome.target?]

/-- Next to a candidate with an exact receiver that can be called, all have one. -/
theorem exactSelf_of_viable {x c : FunctionSymbol} (hx : x ∈ candidates)
    (hviable : viable isResolvedIdentity form call candidates x = true)
    (hself : exactSelf isResolvedIdentity call form x = true)
    (hc : viable isResolvedIdentity form call candidates c = true) :
    exactSelf isResolvedIdentity call form c = true := by
  cases form with
  | funcCall | moduleCall | structMethod isStatic subst => rfl
  | ufcs receiver currentModule =>
    simp only [viable, Bool.and_eq_true, Bool.not_eq_true'] at hviable hc
    have hany : (candidates.any fun d =>
        admits isResolvedIdentity call (.ufcs receiver currentModule) d &&
          exactReceiver isResolvedIdentity receiver call d) = true :=
      List.any_eq_true.mpr ⟨x, hx, by rw [hviable.1.1]; exact hself⟩
    have hbeaten := hc.1.2
    show exactReceiver isResolvedIdentity receiver call c = true
    simpa [beaten, hany] using hbeaten

/-- A call with a dot, in another order of the same candidates, where one can be called. -/
theorem choose_ufcs {receiver : TurfType} {currentModule : String} {c : FunctionSymbol}
    (hapart : LiteralsApart isResolvedIdentity (.ufcs receiver currentModule) call candidates)
    (h : order.Perm candidates) (hc : c ∈ candidates)
    (hviable : viable isResolvedIdentity (.ufcs receiver currentModule) call candidates c = true) :
    choose isResolvedIdentity (.ufcs receiver currentModule) call order =
      ufcsBest isResolvedIdentity receiver call
        (order.filter
          (viable isResolvedIdentity (.ufcs receiver currentModule) call candidates)) := by
  rcases tryUFCSFallback_cases (literalsApart_perm h hapart) with hbest | ⟨hnil, -⟩
  · rw [← viable_perm h]
    exact hbest
  · rw [viable_perm h] at hnil
    exact absurd hviable (List.filter_eq_nil_iff.mp hnil c (h.mem_iff.mpr hc))

theorem one_lt_length {c d : FunctionSymbol} {matching : List FunctionSymbol} (hc : c ∈ matching)
    (hd : d ∈ matching) (hne : c ≠ d) : 1 < matching.length := by
  cases matching with
  | nil => cases hc
  | cons y ys =>
    have hys : ys ≠ [] := by
      rintro rfl
      exact hne ((List.mem_singleton.mp hc).trans (List.mem_singleton.mp hd).symm)
    exact List.one_lt_length_of_tail_ne_nil hys

theorem mem_exactOf {receiver : TurfType} {currentModule : String} {c : FunctionSymbol}
    (h : order.Perm candidates) (hc : c ∈ candidates)
    (hexact : MatchesExactly isResolvedIdentity (.ufcs receiver currentModule) call candidates c) :
    c ∈ exactOf isResolvedIdentity receiver call
      (order.filter
        (viable isResolvedIdentity (.ufcs receiver currentModule) call candidates)) := by
  refine List.mem_filter.mpr ⟨List.mem_filter.mpr ⟨h.mem_iff.mpr hc, hexact.1⟩, ?_⟩
  exact @exactAll_written_of_exactArgs _ (.ufcs receiver currentModule) _ _ trivial hexact.2.2

/-- Several exact candidates of a call with a dot: the order does not matter. -/
theorem choose_several {receiver : TurfType} {currentModule : String} {c d : FunctionSymbol}
    (hapart : LiteralsApart isResolvedIdentity (.ufcs receiver currentModule) call candidates)
    (hc : c ∈ candidates) (hd : d ∈ candidates) (hne : c ≠ d)
    (hcexact : MatchesExactly isResolvedIdentity (.ufcs receiver currentModule) call candidates c)
    (hdexact : MatchesExactly isResolvedIdentity (.ufcs receiver currentModule) call candidates d) :
    (∀ order, order.Perm candidates →
      choose isResolvedIdentity (.ufcs receiver currentModule) call order =
        .reported .ambiguousCall) ∨
    ∃ x ∈ candidates, ∀ order, order.Perm candidates →
      choose isResolvedIdentity (.ufcs receiver currentModule) call order = .chosen x := by
  set callable := viable isResolvedIdentity (.ufcs receiver currentModule) call candidates
  have hhome : ∀ {order : List FunctionSymbol}, order.Perm candidates →
      ((exactOf isResolvedIdentity receiver call (order.filter callable)).filter
        (inHome receiver)).Perm
      ((exactOf isResolvedIdentity receiver call (candidates.filter callable)).filter
        (inHome receiver)) := fun horder => ((horder.filter _).filter _).filter _
  by_cases hone : ((exactOf isResolvedIdentity receiver call
      (candidates.filter callable)).filter (inHome receiver)).length = 1
  · obtain ⟨x, hx⟩ := List.length_eq_one_iff.mp hone
    have hxmem := List.mem_of_mem_filter (List.mem_of_mem_filter (List.mem_of_mem_filter
      (hx ▸ List.mem_singleton_self x)))
    refine .inr ⟨x, hxmem, fun order horder => ?_⟩
    rw [choose_ufcs hapart horder hc hcexact.1]
    refine ufcsBest_of_home (List.ne_nil_of_mem (mem_exactOf horder hc hcexact)) ?_
    exact List.perm_singleton.mp (hx ▸ hhome horder)
  · refine .inl fun order horder => ?_
    rw [choose_ufcs hapart horder hc hcexact.1]
    exact ufcsBest_of_several
      (one_lt_length (mem_exactOf horder hc hcexact) (mem_exactOf horder hd hdexact) hne)
      fun hlen => hone ((hhome horder).length_eq ▸ hlen)

/-- Overloads that may coexist, no two of which take the same literal among the arguments: the one
that can be called is chosen, the one exact candidate where it is looked for, the first where none
is exact; among several exact ones a call with a dot is ambiguous, or means the receiver's own. -/
theorem choice_in_every_order (hcoexist : candidates.Pairwise Coexist)
    (hapart : LiteralsApart isResolvedIdentity form call candidates) :
    Choice isResolvedIdentity form call candidates where
  noneFits hnone order horder := by
    rw [target_choose_perm hapart horder, List.filter_eq_nil_iff.mpr, pick_nil]
    intro c hc
    rw [hnone c (horder.mem_iff.mp hc)]
    exact Bool.false_ne_true
  only x hx honly order horder := by
    have hfilter := filter_eq_singleton (horder.nodup_iff.mpr (nodup_of_coexist hcoexist))
      (horder.mem_iff.mpr hx) fun c hc => honly c (horder.mem_iff.mp hc)
    rw [← Outcome.target?_eq_some, target_choose_perm hapart horder, hfilter, pick_singleton]
  exact x hx hlooks hexact order horder := by
    obtain ⟨hviable, hself, hargs⟩ := (hexact x hx).mpr rfl
    rw [← Outcome.target?_eq_some, target_choose_perm hapart horder]
    have hnodup := horder.nodup_iff.mpr (nodup_of_coexist hcoexist)
    refine pick_of_exact (hnodup.filter _)
      (List.mem_filter.mpr ⟨horder.mem_iff.mpr hx, hviable⟩) hlooks hargs fun c hc hcargs => ?_
    obtain ⟨hmem, hcviable⟩ := List.mem_filter.mp hc
    have hcmem := horder.mem_iff.mp hmem
    exact (hexact c hcmem).mp ⟨hcviable, exactSelf_of_viable hx hviable hself hcviable, hcargs⟩
  first hnone order horder := by
    rw [target_choose_perm hapart horder, pick_of_no_exact, List.head?_filter]
    intro c hc
    obtain ⟨hmem, hviable⟩ := List.mem_filter.mp hc
    exact hnone c (horder.mem_iff.mp hmem) hviable
  several hufcs c hc d hd hne hcexact hdexact := by
    cases form with
    | funcCall | moduleCall | structMethod isStatic subst => cases hufcs
    | ufcs receiver currentModule => exact choose_several hapart hc hd hne hcexact hdexact

end

/-- `fn show(x: double)` and `fn show(x: int)`, in this order. -/
def showDouble : FunctionSymbol :=
  { baseName := "show", sourceModule := "main", params := [⟨"x", .double⟩] }

def showInt : FunctionSymbol :=
  { baseName := "show", sourceModule := "main", params := [⟨"x", .int32⟩] }

/-- `show(1)`. -/
def showOne : Call := { args := [{ type := some .int32 }] }

theorem choice_showOne :
    choose (fun _ => false) .funcCall showOne [showDouble, showInt] = .chosen showInt ∧
      choose (fun _ => false) .funcCall showOne [showInt, showDouble] = .chosen showInt := by
  have hcoexist : [showDouble, showInt].Pairwise Coexist :=
    List.pairwise_pair.mpr fun hsame => absurd hsame.2.2 (by decide)
  have hapart : LiteralsApart (fun _ => false) .funcCall showOne [showDouble, showInt] := by
    refine .cons ?_ (List.pairwise_singleton _ _)
    intro d hd
    rw [List.mem_singleton.mp hd]
    exact ⟨by decide, trivial⟩
  have hchosen := (choice_in_every_order hcoexist hapart).exact showInt (by simp) rfl fun c hc => by
    rw [List.mem_pair] at hc
    rcases hc with rfl | rfl
    · refine ⟨fun hexact => absurd hexact.2.2 (by decide), fun heq => ?_⟩
      have := congrArg FunctionSymbol.paramTypes heq
      simp [showDouble, showInt, FunctionSymbol.paramTypes] at this
    · exact iff_of_true ⟨by decide, rfl, by decide⟩ rfl
  exact ⟨hchosen _ (.refl _), hchosen _ (.swap _ _ _)⟩

/-- `fn f(x: double, y: int)` and `fn f(x: int, y: double)`. -/
def leftDouble : FunctionSymbol :=
  { baseName := "f", sourceModule := "main", params := [⟨"x", .double⟩, ⟨"y", .int32⟩] }

def rightDouble : FunctionSymbol :=
  { baseName := "f", sourceModule := "main", params := [⟨"x", .int32⟩, ⟨"y", .double⟩] }

/-- `f(1, 2)`. -/
def callTwoInts : Call := { args := [{ type := some .int32 }, { type := some .int32 }] }

/-- Neither candidate is exact, and each is chosen where it is declared first. -/
theorem not_orderIndependent_callTwoInts : [leftDouble, rightDouble].Pairwise Coexist ∧
    ¬OrderIndependent (fun _ => false) .funcCall callTwoInts [leftDouble, rightDouble] := by
  have hne : leftDouble ≠ rightDouble := by
    intro heq
    have := congrArg FunctionSymbol.paramTypes heq
    simp [leftDouble, rightDouble, FunctionSymbol.paramTypes] at this
  have hleft : choose (fun _ => false) .funcCall callTwoInts [leftDouble, rightDouble] =
      .chosen leftDouble := rfl
  have hright : choose (fun _ => false) .funcCall callTwoInts [rightDouble, leftDouble] =
      .chosen rightDouble := rfl
  have hcoexist : [leftDouble, rightDouble].Pairwise Coexist :=
    List.pairwise_pair.mpr fun hsame => absurd hsame.2.2 (by decide)
  refine ⟨hcoexist, fun hindependent => ?_⟩
  have hnone : ¬∃ x ∈ [leftDouble, rightDouble], ∀ c ∈ [leftDouble, rightDouble],
      MatchesExactly (fun _ => false) .funcCall callTwoInts [leftDouble, rightDouble] c ↔
        c = x := by
    rintro ⟨x, hx, hexact⟩
    have hmatches := ((hexact x hx).mpr rfl).2.2
    rw [List.mem_pair] at hx
    rcases hx with rfl | rfl
    · exact absurd hmatches (by decide)
    · exact absurd hmatches (by decide)
  rcases hindependent.2 hnone with ⟨x, -, -, hchosen⟩ | hunmatched
  · have h := hchosen _ (List.Perm.refl _)
    have h' := hchosen _ (List.Perm.swap leftDouble rightDouble [])
    rw [hleft] at h
    rw [hright] at h'
    exact hne ((Outcome.chosen.inj h).trans (Outcome.chosen.inj h').symm)
  · have h := hunmatched _ (List.Perm.refl _)
    rw [hleft] at h
    cases h

end TurfLang.Overload
