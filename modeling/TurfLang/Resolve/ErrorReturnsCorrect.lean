import TurfLang.Resolve.ErrorReturns

/-!
# Which errors a function is found to return

The scan answers "nothing" for the nodes it does not enter. Where no return of an error stands there,
and no call that fails is returned in a form that `visitReturn` does not know, the warning is true;
and the refusal is right where, besides, a function that is found to return bare errors alone hands
on no others.
-/

namespace TurfLang

namespace ErrorReturns

open Behaviour

variable {D : Declarations}

/-! ### What the checks promise -/

/-- The warning is given only to functions that never return an error, and the binding of an error
is refused only if each error that is returned is of a bare-form type. -/
structure Honest (body : Expr D) : Prop where
  warning : neverReturnsError body = true → ∀ t o, body.run t o → t = []
  refusal : bareErrorAsBinding D (buildFunctionSymbol body) = true →
    ∀ t o, body.run t o → ∀ E ∈ t, D.isBareForm E = true

/-! ### Where the scan does not look -/

/-- The errors that a return names: variants, and what an error variable holds. -/
def Expr.tags : Expr D → List String
  | .returnVal val => val.errorTags
  | _ => []

/-- The errors of a call that a return hands on. -/
def Expr.handedOn : Expr D → List String
  | .returnVal val => val.fails
  | _ => []

/-- A return of a variable that is no bound error. -/
def Expr.hiddenVal (bound : List String) : Expr D → List (Expr D)
  | .var name holds => if name ∈ bound then [] else [.returnVal (.var name holds)]
  | _ => []

mutual

/-- The nodes that the scan does not come to, and the returns in which it finds nothing though they
may be of an error. -/
def Expr.hidden : Expr D → List String → List (Expr D)
  | .returnVal val, bound => val.hiddenVal bound ++ val.nodes
  | .block exprs, bound => hiddenAll exprs bound
  | .ifElse branches, bound => branches.hidden bound
  | .whileLoop cond body, bound => cond.nodes ++ body.hidden bound
  | .forRange start stop step body, bound =>
    start.nodes ++ stop.nodes ++ step.nodes ++ body.hidden bound
  | .forEach iterable body, bound => iterable.nodes ++ body.hidden bound
  | .varDecl initializer, bound => initializer.hidden bound
  | .assignment rhs lhs, bound => rhs.hidden bound ++ lhs.nodes
  | .recover .produce wrapped body, bound | .recover .run wrapped body, bound =>
    wrapped.hidden bound ++ body.hidden bound
  | .recover (.asRun boundName) wrapped body, bound =>
    wrapped.hidden bound ++ body.hidden (bound ++ [boundName])
  | e, _ => e.nodes

def Branches.hidden : Branches D → List String → List (Expr D)
  | .noElse, _ => []
  | .elseBody body, bound => body.hidden bound
  | .branch cond body rest, bound => cond.nodes ++ body.hidden bound ++ rest.hidden bound

def hiddenAll : List (Expr D) → List String → List (Expr D)
  | [], _ => []
  | e :: es, bound => e.hidden bound ++ hiddenAll es bound

end

/-- Every return of an error is in a form and a place where it is found. -/
structure InSight (body : Expr D) : Prop where
  named : ∀ n ∈ body.hidden [], n.tags = []
  handedOn : ∀ n ∈ body.nodes, n.handedOn ≠ [] → n.passesFallible = true

/-- A function that is found to return bare errors alone hands on no others. -/
def HandsOnBare (body : Expr D) : Prop :=
  body.nodes.any Expr.isTry = true ∨ (body.collect []).rebound = true ∨
    (∃ name ∈ (body.collect []).names, D.isErrorTypeName name = true ∧ D.isBareForm name = false) ∨
    (∀ name ∈ (body.collect []).names, D.isErrorTypeName name = false) ∨
    ∀ n ∈ body.nodes, ∀ E ∈ n.handedOn, D.isBareForm E = true

/-! ### The scan -/

/-- What is found contains an error: its type by name, or as an error that is bound. -/
def Found.Has (D : Declarations) (f : Found) (E : String) : Prop :=
  (E ∈ f.names ∧ D.isErrorTypeName E = true) ∨ f.rebound = true

theorem Found.Has.append_left {f : Found} {E : String} (h : f.Has D E) (g : Found) :
    (f.append g).Has D E := by
  obtain ⟨hmem, herr⟩ | h := h
  · exact .inl ⟨List.mem_append_left _ hmem, herr⟩
  · exact .inr (by simp [append, h])

theorem Found.Has.append_right {g : Found} {E : String} (h : g.Has D E) (f : Found) :
    (f.append g).Has D E := by
  obtain ⟨hmem, herr⟩ | h := h
  · exact .inl ⟨List.mem_append_right _ hmem, herr⟩
  · exact .inr (by simp [append, h])

/-- A return that names an error is found, or hidden. -/
theorem Expr.collectVal_has (val : Expr D) (bound : List String) {E : String}
    (hE : E ∈ val.errorTags) :
    (val.collectVal bound).Has D E ∨ .returnVal val ∈ val.hiddenVal bound := by
  have haccess : ∀ access : ScopeAccess D, E ∈ (if access.isVariant then [access.name] else []) →
      E = access.name ∧ D.isErrorTypeName E = true := by
    intro access h
    split_ifs at h with hvariant
    · obtain rfl := List.mem_singleton.mp h
      exact ⟨rfl, access.declared hvariant⟩
    · cases h
  cases val with
  | var name holds =>
    by_cases hname : name ∈ bound
    · exact .inl (.inr (by simpa [collectVal] using hname))
    · exact .inr (by simp [hiddenVal, hname])
  | scopeAccess access =>
    obtain ⟨rfl, herr⟩ := haccess access hE
    exact .inl (.inl ⟨by simp [collectVal], herr⟩)
  | call callee args =>
    obtain ⟨_ | access, candidates, throughValue, fails, declared⟩ := callee
    · cases hE
    · obtain ⟨rfl, herr⟩ := haccess access hE
      exact .inl (.inl ⟨by simp [collectVal], herr⟩)
  | _ => cases hE

mutual

theorem Expr.collect_has : ∀ (e : Expr D) (bound : List String) {n : Expr D} {E : String},
    n ∈ e.nodes → E ∈ n.tags → (e.collect bound).Has D E ∨ n ∈ e.hidden bound
  | .returnVal val, bound, n, E, hn, hE => by
    simp only [Expr.nodes, List.mem_cons] at hn
    obtain rfl | hn := hn
    · obtain h | h := val.collectVal_has bound hE
      · exact .inl h
      · exact .inr (List.mem_append_left _ h)
    · exact .inr (List.mem_append_right _ hn)
  | .block exprs, bound, n, E, hn, hE => by
    simp only [Expr.nodes, List.mem_cons] at hn
    obtain rfl | hn := hn
    · cases hE
    · exact collectAll_has exprs bound hn hE
  | .ifElse branches, bound, n, E, hn, hE => by
    simp only [Expr.nodes, List.mem_cons] at hn
    obtain rfl | hn := hn
    · cases hE
    · exact Branches.collect_has branches bound hn hE
  | .whileLoop cond body, bound, n, E, hn, hE => by
    simp only [Expr.nodes, List.mem_cons, List.mem_append] at hn
    obtain rfl | hn | hn := hn
    · cases hE
    · exact .inr (List.mem_append_left _ hn)
    · exact (Expr.collect_has body bound hn hE).imp id (List.mem_append_right _)
  | .forRange start stop step body, bound, n, E, hn, hE => by
    simp only [Expr.nodes, List.mem_cons, List.mem_append] at hn
    obtain rfl | hn | hn := hn
    · cases hE
    · refine .inr (List.mem_append_left _ ?_)
      simpa only [List.mem_append] using hn
    · exact (Expr.collect_has body bound hn hE).imp id (List.mem_append_right _)
  | .forEach iterable body, bound, n, E, hn, hE => by
    simp only [Expr.nodes, List.mem_cons, List.mem_append] at hn
    obtain rfl | hn | hn := hn
    · cases hE
    · exact .inr (List.mem_append_left _ hn)
    · exact (Expr.collect_has body bound hn hE).imp id (List.mem_append_right _)
  | .varDecl initializer, bound, n, E, hn, hE => by
    simp only [Expr.nodes, List.mem_cons] at hn
    obtain rfl | hn := hn
    · cases hE
    · exact Expr.collect_has initializer bound hn hE
  | .assignment rhs lhs, bound, n, E, hn, hE => by
    simp only [Expr.nodes, List.mem_cons, List.mem_append] at hn
    obtain rfl | hn | hn := hn
    · cases hE
    · exact (Expr.collect_has rhs bound hn hE).imp id (List.mem_append_left _)
    · exact .inr (List.mem_append_right _ hn)
  | .recover kind wrapped body, bound, n, E, hn, hE => by
    simp only [Expr.nodes, List.mem_cons, List.mem_append] at hn
    obtain rfl | hn | hn := hn
    · cases hE
    · have h := Expr.collect_has wrapped bound hn hE
      cases kind <;> exact h.imp (·.append_left _) (List.mem_append_left _)
    · cases kind with
      | produce | run =>
        exact (Expr.collect_has body bound hn hE).imp (·.append_right _) (List.mem_append_right _)
      | asRun boundName =>
        exact (Expr.collect_has body (bound ++ [boundName]) hn hE).imp (·.append_right _)
          (List.mem_append_right _)
  | .var _ _, _, _, _, hn, _ | .scopeAccess _, _, _, _, hn, _ | .call _ _, _, _, _, hn, _
  | .methodCall _ _, _, _, _, hn, _ | .node _ _, _, _, _, hn, _ | .tryExpr _, _, _, _, hn, _
  | .unsafeBlock _, _, _, _, hn, _ | .doWhile _ _, _, _, _, hn, _ | .compare _ _, _, _, _, hn, _
  | .returnVoid, _, _, _, hn, _ | .breakLoop, _, _, _, hn, _ | .continueLoop, _, _, _, hn, _
  | .defer _, _, _, _, hn, _ => .inr hn

theorem Branches.collect_has : ∀ (b : Branches D) (bound : List String) {n : Expr D} {E : String},
    n ∈ b.nodes → E ∈ n.tags → (b.collect bound).Has D E ∨ n ∈ b.hidden bound
  | .noElse, _, _, _, hn, _ => by cases hn
  | .elseBody body, bound, _, _, hn, hE => Expr.collect_has body bound hn hE
  | .branch cond body rest, bound, n, E, hn, hE => by
    simp only [Branches.nodes, List.mem_append] at hn
    simp only [Branches.hidden, List.mem_append]
    obtain (hn | hn) | hn := hn
    · exact .inr (.inl (.inl hn))
    · exact (Expr.collect_has body bound hn hE).imp (·.append_left _) (.inl ∘ .inr)
    · exact (Branches.collect_has rest bound hn hE).imp (·.append_right _) .inr

theorem collectAll_has : ∀ (l : List (Expr D)) (bound : List String) {n : Expr D} {E : String},
    n ∈ nodesAll l → E ∈ n.tags → (collectAll l bound).Has D E ∨ n ∈ hiddenAll l bound
  | [], _, _, _, hn, _ => by cases hn
  | e :: es, bound, n, E, hn, hE => by
    simp only [nodesAll, List.mem_append] at hn
    obtain hn | hn := hn
    · exact (Expr.collect_has e bound hn hE).imp (·.append_left _) (List.mem_append_left _)
    · exact (collectAll_has es bound hn hE).imp (·.append_right _) (List.mem_append_right _)

end

/-! ### What the nodes return -/

theorem Expr.self_mem_nodes (e : Expr D) : e ∈ e.nodes := by
  cases e <;> simp [Expr.nodes]

section

variable {C : Behaviour String → Prop} (hC : Closed C)

include hC

mutual

theorem Expr.closed_run : ∀ e : Expr D, (∀ n ∈ e.nodes, C n.own) → C e.run
  | .var _ _, h | .scopeAccess _, h | .returnVoid, h | .breakLoop, h | .continueLoop, h =>
    h _ (Expr.self_mem_nodes _)
  | .call callee args, h => by
    have hown := h _ (Expr.self_mem_nodes _)
    simp only [Expr.nodes, List.forall_mem_cons] at h
    exact hC.seq (closed_runAll args h.2) hown
  | .methodCall fails args, h => by
    have hown := h _ (Expr.self_mem_nodes _)
    simp only [Expr.nodes, List.forall_mem_cons] at h
    exact hC.seq (closed_runAll args h.2) hown
  | .node fails children, h => by
    have hown := h _ (Expr.self_mem_nodes _)
    simp only [Expr.nodes, List.forall_mem_cons] at h
    exact hC.seq (closed_runAll children h.2) hown
  | .varDecl initializer, h => by
    have hown := h _ (Expr.self_mem_nodes _)
    simp only [Expr.nodes, List.forall_mem_cons] at h
    exact hC.seq (Expr.closed_run initializer h.2) hown
  | .assignment rhs lhs, h => by
    have hown := h _ (Expr.self_mem_nodes _)
    simp only [Expr.nodes, List.forall_mem_cons, List.forall_mem_append] at h
    exact hC.seq (Expr.closed_run rhs h.2.1) (hC.seq (Expr.closed_run lhs h.2.2) hown)
  | .recover _ wrapped body, h => by
    simp only [Expr.nodes, List.forall_mem_cons, List.forall_mem_append] at h
    exact hC.seq (Expr.closed_run wrapped h.2.1) (hC.choice hC.skip (Expr.closed_run body h.2.2))
  | .tryExpr operand, h => by
    have hown := h _ (Expr.self_mem_nodes _)
    simp only [Expr.nodes, List.forall_mem_cons] at h
    exact hC.seq (Expr.closed_run operand h.2) hown
  | .block exprs, h => by
    simp only [Expr.nodes, List.forall_mem_cons] at h
    exact closed_runItems exprs h.2
  | .unsafeBlock body, h => by
    simp only [Expr.nodes, List.forall_mem_cons] at h
    exact Expr.closed_run body h.2
  | .ifElse branches, h => by
    simp only [Expr.nodes, List.forall_mem_cons] at h
    exact Branches.closed_run branches h.2
  | .whileLoop cond body, h => by
    simp only [Expr.nodes, List.forall_mem_cons, List.forall_mem_append] at h
    exact hC.loop (Expr.closed_run cond h.2.1) (Expr.closed_run body h.2.2) hC.skip
  | .doWhile body cond, h => by
    simp only [Expr.nodes, List.forall_mem_cons, List.forall_mem_append] at h
    exact hC.loop hC.skip (Expr.closed_run body h.2.1) (Expr.closed_run cond h.2.2)
  | .forRange start stop step body, h => by
    simp only [Expr.nodes, List.forall_mem_cons, List.forall_mem_append] at h
    obtain ⟨-, ⟨⟨hstart, hstop⟩, hstep⟩, hbody⟩ := h
    exact hC.seq (Expr.closed_run start hstart) (hC.seq (Expr.closed_run stop hstop)
      (hC.loop hC.skip (Expr.closed_run body hbody) (Expr.closed_run step hstep)))
  | .forEach iterable body, h => by
    simp only [Expr.nodes, List.forall_mem_cons, List.forall_mem_append] at h
    exact hC.seq (Expr.closed_run iterable h.2.1)
      (hC.loop hC.skip (Expr.closed_run body h.2.2) hC.skip)
  | .compare subject arms, h => by
    simp only [Expr.nodes, List.forall_mem_cons, List.forall_mem_append] at h
    exact hC.seq (Expr.closed_run subject h.2.1) (Arms.closed_run arms h.2.2)
  | .returnVal val, h => by
    have hown := h _ (Expr.self_mem_nodes _)
    simp only [Expr.nodes, List.forall_mem_cons] at h
    exact hC.seq (Expr.closed_run val h.2) hown
  | .defer _, _ => hC.skip

theorem Branches.closed_run : ∀ b : Branches D, (∀ n ∈ b.nodes, C n.own) → C b.run
  | .noElse, _ => hC.skip
  | .elseBody body, h => Expr.closed_run body h
  | .branch cond body rest, h => by
    simp only [Branches.nodes, List.forall_mem_append] at h
    exact hC.seq (Expr.closed_run cond h.1.1)
      (hC.choice (Expr.closed_run body h.1.2) (Branches.closed_run rest h.2))

theorem Arms.closed_run : ∀ a : Arms D, (∀ n ∈ a.nodes, C n.own) → C a.run
  | .noOtherBody, _ => hC.skip
  | .otherBody body, h => Expr.closed_run body h
  | .arm headers body rest, h => by
    simp only [Arms.nodes, List.forall_mem_append] at h
    exact hC.seq (closed_runAll headers h.1.1)
      (hC.choice (Expr.closed_run body h.1.2) (Arms.closed_run rest h.2))

theorem closed_runAll : ∀ l : List (Expr D), (∀ n ∈ nodesAll l, C n.own) → C (runAll l)
  | [], _ => hC.skip
  | e :: es, h => by
    simp only [nodesAll, List.forall_mem_append] at h
    exact hC.seq (Expr.closed_run e h.1) (closed_runAll es h.2)

theorem closed_runItems : ∀ l : List (Expr D), (∀ n ∈ nodesAll l, C n.own) → C (runItems l)
  | [], _ => hC.skip
  | e :: es, h => by
    simp only [nodesAll, List.forall_mem_append] at h
    have hrest := closed_runItems es h.2
    cases e with
    | defer stmt =>
      have hstmt := h.1
      simp only [Expr.nodes, List.forall_mem_cons] at hstmt
      exact hC.cleanup hrest (Expr.closed_run stmt hstmt.2)
    | _ => exact hC.seq (Expr.closed_run _ h.1) hrest

end

end

theorem shows_raise {p : String → Prop} {errors : List String} (h : ∀ E ∈ errors, p E) :
    Shows p (raise errors) := by
  rintro t o ⟨E, hE, rfl, -⟩
  simpa using h E hE

/-- A node adds no errors but those that it returns. -/
theorem shows_own {p : String → Prop} (n : Expr D) (h : ∀ E ∈ n.returned, p E) :
    Shows p n.own := by
  have hcut : Shows p (choice skip (jump .halts)) :=
    closed_shows.choice (shows_jump _) (shows_jump _)
  cases n with
  | returnVal val =>
    refine closed_shows.seq ?_ (shows_jump _)
    split_ifs with htags
    · exact closed_shows.choice (shows_jump _)
        (shows_raise fun E hE => h E (List.mem_append_right _ hE))
    · exact shows_raise h
  | tryExpr operand =>
    exact closed_shows.choice (shows_jump _) (closed_shows.seq (shows_raise h) (shows_jump _))
  | returnVoid => exact shows_jump _
  | breakLoop => exact shows_jump _
  | continueLoop => exact shows_jump _
  | _ => exact hcut

/-- The errors that a run returns are returned by nodes of the body. -/
theorem shows_run {p : String → Prop} {body : Expr D}
    (h : ∀ n ∈ body.nodes, ∀ E ∈ n.returned, p E) : Shows p body.run :=
  Expr.closed_run closed_shows body fun n hn => shows_own n (h n hn)

/-- What a node returns it names, hands on from a call, or passes on by `try`. -/
theorem Expr.mem_returned {n : Expr D} {E : String} (h : E ∈ n.returned) :
    E ∈ n.tags ∨ E ∈ n.handedOn ∨ n.isTry = true := by
  cases n with
  | returnVal val => exact (List.mem_append.mp h).imp_right .inl
  | tryExpr operand => exact .inr (.inr rfl)
  | _ => cases h

/-! ### The checks -/

theorem InSight.found {body : Expr D} (h : InSight body) {n : Expr D} (hn : n ∈ body.nodes)
    {E : String} (hE : E ∈ n.tags) : (body.collect []).Has D E := by
  obtain hfound | hhidden := Expr.collect_has body [] hn hE
  · exact hfound
  · rw [h.named n hhidden] at hE
    cases hE

/-- Where every return of an error is in sight of the scan, the warning is given only to functions
that return none. -/
theorem InSight.warning {body : Expr D} (h : InSight body) (hwarned : neverReturnsError body = true) :
    ∀ t o, body.run t o → t = [] := by
  simp only [neverReturnsError, buildFunctionSymbol, Bool.not_eq_true', Bool.or_eq_false_iff,
    List.any_eq_false] at hwarned
  obtain ⟨⟨⟨hrebound, htry⟩, hpasses⟩, hnames⟩ := hwarned
  have hshows : Shows (fun _ => False) body.run := by
    refine shows_run fun n hn E hE => ?_
    obtain hE | hE | hE := Expr.mem_returned hE
    · obtain ⟨hmem, herr⟩ | h := h.found hn hE
      · exact hnames E hmem herr
      · exact Bool.false_ne_true (hrebound.symm.trans h)
    · exact hpasses n hn (h.handedOn n hn (List.ne_nil_of_mem hE))
    · exact htry n hn hE
  exact fun t o hrun => List.eq_nil_iff_forall_not_mem.mpr (hshows t o hrun)

/-- The binding of an error is refused only where each error that is returned is of a bare form. -/
theorem InSight.refusal {body : Expr D} (h : InSight body) (hbare : HandsOnBare body)
    (hrefused : bareErrorAsBinding D (buildFunctionSymbol body) = true) :
    ∀ t o, body.run t o → ∀ E ∈ t, D.isBareForm E = true := by
  simp only [bareErrorAsBinding, buildFunctionSymbol, Bool.and_eq_true, Bool.not_eq_true',
    Bool.or_eq_false_iff, List.isEmpty_eq_false_iff, List.all_filter, List.all_eq_true] at hrefused
  obtain ⟨⟨⟨hrebound, htry⟩, hsome⟩, hall⟩ := hrefused
  have hnames : ∀ name ∈ (body.collect []).names, D.isErrorTypeName name = true →
      D.isBareForm name = true := fun name hname herr => by simpa [herr] using hall name hname
  have hhanded : ∀ n ∈ body.nodes, ∀ E ∈ n.handedOn, D.isBareForm E = true := by
    obtain h | h | ⟨name, hname, herr, hform⟩ | h | h := hbare
    · exact absurd (htry.symm.trans h) Bool.false_ne_true
    · exact absurd (hrebound.symm.trans h) Bool.false_ne_true
    · exact absurd (hform.symm.trans (hnames name hname herr)) Bool.false_ne_true
    · exact absurd (List.filter_eq_nil_iff.mpr fun name hname => by simp [h name hname]) hsome
    · exact h
  refine shows_run fun n hn E hE => ?_
  obtain hE | hE | hE := Expr.mem_returned hE
  · obtain ⟨hmem, herr⟩ | h := h.found hn hE
    · exact hnames E hmem herr
    · exact absurd (hrebound.symm.trans h) Bool.false_ne_true
  · exact hhanded n hn E hE
  · exact absurd (List.any_eq_true.mpr ⟨n, hn, hE⟩) (by simp [htry])

/-- The checks are right where every return of an error is in sight, and a function that is found
to return bare errors alone hands on no others. -/
theorem InSight.honest {body : Expr D} (h : InSight body) (hbare : HandsOnBare body) :
    Honest body :=
  ⟨h.warning, h.refusal hbare⟩

/-! ### A body of each kind -/

/-- `error IOError = {Bad};` and `error Bare;`. -/
def twoErrors : Declarations where
  isErrorTypeName name := name == "IOError" || name == "Bare"
  isBareForm name := name == "Bare"

/-- `IOError::Bad`. -/
def bad : Expr twoErrors := .scopeAccess ⟨"IOError", true, by decide⟩

/-- `Bare::DEFAULT`. -/
def bare : Expr twoErrors := .scopeAccess ⟨"Bare", true, by decide⟩

/-- `g()`, a function that fails with certain errors. -/
def failing (fails : List String) : Expr twoErrors :=
  .call ⟨none, [true], false, fails, fun _ => .inr List.mem_cons_self⟩ []

/-- `if (c) { return Bare::DEFAULT; } return g();` -/
def bareThenCall (fails : List String) : Expr twoErrors :=
  .block [.ifElse (.branch (.node [] []) (.block [.returnVal bare]) .noElse),
    .returnVal (failing fails)]

/-- `do { return IOError::Bad; } while (c);` -/
def returnInDoWhile : Expr twoErrors :=
  .block [.doWhile (.block [.returnVal bad]) (.node [] [])]

/-- A return of an error returns it. -/
theorem returnVal_run {val : Expr D} {E : String} (hval : val.run [] .normal)
    (hE : E ∈ val.errorTags ++ val.fails) : (Expr.returnVal val).run [E] .returns := by
  simp only [Expr.run, Expr.own]
  refine .inr ⟨[], [E], hval, .inr ⟨[E], [], ?_, ⟨rfl, rfl⟩, rfl⟩, rfl⟩
  split_ifs with htags
  · exact .inr ⟨E, by simpa [htags] using hE, rfl, rfl⟩
  · exact ⟨E, hE, rfl, rfl⟩

theorem honest_bareThenCall : Honest (bareThenCall ["Bare"]) :=
  InSight.honest ⟨by decide, by decide⟩ (.inr (.inr (.inr (.inr (by decide)))))

/-- A return in a `do` loop is not found, and an error that is handed on from a call is of no
account once a bare error is found. -/
theorem not_honest : ¬ Honest returnInDoWhile ∧ ¬ Honest (bareThenCall ["IOError"]) := by
  refine ⟨fun h => ?_, fun h => ?_⟩
  · have hreturn : (Expr.returnVal bad).run ["IOError"] .returns :=
      returnVal_run (.inl ⟨rfl, rfl⟩) (by decide)
    have hrun : returnInDoWhile.run ["IOError"] .returns := by
      refine .inl ⟨?_, by decide⟩
      exact @Loop.bodyEnds _ _ [] _ _ trivial ⟨rfl, rfl⟩ (.inl ⟨hreturn, by decide⟩) (by decide)
        (by decide) (by decide)
    cases h.warning (by decide) _ _ hrun
  · have hreturn : (Expr.returnVal (failing ["IOError"])).run ["IOError"] .returns :=
      returnVal_run (.inr ⟨[], [], ⟨rfl, rfl⟩, .inl ⟨rfl, rfl⟩, rfl⟩) (by decide)
    have hcond : (Expr.node [] [] : Expr twoErrors).run [] .normal :=
      .inr ⟨[], [], ⟨rfl, rfl⟩, .inl ⟨rfl, rfl⟩, rfl⟩
    have hskipped : (Expr.ifElse (.branch (.node [] []) (.block [.returnVal bare]) .noElse)).run
        [] .normal :=
      .inr ⟨[], [], hcond, .inr ⟨rfl, rfl⟩, rfl⟩
    have hrun : (bareThenCall ["IOError"]).run ["IOError"] .returns :=
      .inr ⟨[], ["IOError"], hskipped, .inl ⟨hreturn, by decide⟩, rfl⟩
    have hform := h.refusal (by decide) _ _ hrun "IOError" List.mem_cons_self
    exact absurd hform (by decide)

end ErrorReturns

end TurfLang
