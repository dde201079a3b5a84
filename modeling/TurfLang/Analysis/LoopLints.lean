import TurfLang.Frontend.Nodes

/-!
# `Lint.cpp`: loops that cannot advance or end

`MayModifyVariable` looks for an assignment to the loop variable, descending into some kinds of
nodes and answering no for the others. `LoopExitFinder` looks for jumps in the whole body, but a
`try` is not a jump to it. A warned loop is as the warning says where no write stands in a node
that the first does not enter, and no `try` in the body.
-/

namespace TurfLang

namespace Ast

open Behaviour

/-! ### The lints -/

def Expr.isTargetVar (varName : String) : Expr → Bool
  | .name x _ => x = varName
  | _ => false

mutual

/-- `MayModifyVariable`. An assignment has its left side last. -/
def Expr.mayModifyVariable (varName : String) : Expr → Bool
  | .node .assignment children | .node (.compoundAssignment _) children
  | .node (.postfixOp _) children =>
    children.getLast?.any (·.isTargetVar varName) || anyMayModify varName children
  | .node .addressOf _ => true
  | .node (.call _) children | .node (.methodCall _) children | .node (.binary _) children
  | .node (.unary _) children => anyMayModify varName children
  | .logical _ lhs rhs => lhs.mayModifyVariable varName || rhs.mayModifyVariable varName
  | .block exprs => anyMayModify varName exprs
  | .ifElse branches => branches.mayModifyVariable varName
  | .whileLoop cond body => cond.mayModifyVariable varName || body.mayModifyVariable varName
  | .forRange _ _ start stop step body =>
    start.mayModifyVariable varName || stop.mayModifyVariable varName ||
      step.mayModifyVariable varName || body.mayModifyVariable varName
  | .forEach _ iterable body =>
    iterable.mayModifyVariable varName || body.mayModifyVariable varName
  | .returnVal val => val.mayModifyVariable varName
  | _ => false

def Branches.mayModifyVariable (varName : String) : Branches → Bool
  | .noElse => false
  | .elseBody body => body.mayModifyVariable varName
  | .branch cond body rest =>
    cond.mayModifyVariable varName || body.mayModifyVariable varName ||
      rest.mayModifyVariable varName

def anyMayModify (varName : String) : List Expr → Bool
  | [] => false
  | e :: es => e.mayModifyVariable varName || anyMayModify varName es

end

/-- What `LoopExitFinder` finds. -/
def Expr.isLoopExit : Expr → Bool
  | .breakLoop | .continueLoop | .returnVoid | .returnVal _ => true
  | _ => false

def Expr.containsLoopExit (e : Expr) : Bool := e.nodes.any Expr.isLoopExit

/-- `LintFor`: whether a `StuckForLoopVariableWarning` is given. -/
def Expr.lintFor : Expr → Bool
  | .forRange varName _ _ _ step body =>
    !(step.mayModifyVariable varName || body.mayModifyVariable varName)
  | _ => false

/-- `LintWhile` and `LintDoWhile`: whether a `SuspiciousInfiniteLoopWarning` is given. -/
def Expr.lintWhile : Expr → Bool
  | .whileLoop (.bool true) body | .doWhile body (.bool true) => !body.containsLoopExit
  | _ => false

/-! ### What the warnings say -/

/-- A node that gives a variable a value, or lets its address out. -/
def Expr.Writes (s : ℕ) : Expr → Prop
  | .node .assignment children | .node (.compoundAssignment _) children
  | .node (.postfixOp _) children | .node .addressOf children =>
    ∃ x, .name x s ∈ children.getLast?
  | _ => False

/-- The evaluations that leave a variable as it is. -/
def Event.Keeps (s : ℕ) : Event → Prop
  | .eval e => ¬ e.Writes s
  | _ => True

/-- The step and the body of a `for` leave its variable as it is, in all their runs. -/
def Expr.Stuck : Expr → Prop
  | .forRange _ s _ _ step body =>
    Shows (Event.Keeps s) (step.run .bare) ∧ Shows (Event.Keeps s) (body.run .bare)
  | _ => True

/-- No run ends otherwise than cut off where it stood: by a panic, or at the end of the process. -/
def Expr.Endless (e : Expr) : Prop := Within (· = .halts) (e.run .bare)

/-- The warnings on a loop are true. -/
def Expr.LintsTrue (e : Expr) : Prop :=
  (e.lintFor = true → e.Stuck) ∧ (e.lintWhile = true → e.Endless)

/-- The Resolver gives a name the symbol of a variable that is so called. -/
def Expr.Resolved : Expr → Prop
  | .forRange varName s _ _ step body =>
    ∀ x, .name x s ∈ step.nodes ++ body.nodes → x = varName
  | _ => True

/-! ### Where the scan does not look -/

mutual

/-- The nodes that `MayModifyVariable` does not come to. -/
def Expr.unscanned : Expr → List Expr
  | .node .assignment children | .node (.compoundAssignment _) children
  | .node (.postfixOp _) children | .node .addressOf children | .node (.call _) children
  | .node (.methodCall _) children | .node (.binary _) children | .node (.unary _) children =>
    unscannedAll children
  | .node _ children => nodesAll children
  | .logical _ lhs rhs => lhs.unscanned ++ rhs.unscanned
  | .varDecl _ _ inits => nodesAll inits
  | .recoverProduce wrapped produce => wrapped.nodes ++ produce.nodes
  | .recoverRun wrapped _ block => wrapped.nodes ++ block.nodes
  | .tryExpr operand => operand.nodes
  | .block exprs => unscannedAll exprs
  | .unsafeBlock body => body.nodes
  | .ifElse branches => branches.unscanned
  | .whileLoop cond body => cond.unscanned ++ body.unscanned
  | .doWhile body cond => cond.nodes ++ body.nodes
  | .forRange _ _ start stop step body =>
    start.unscanned ++ stop.unscanned ++ step.unscanned ++ body.unscanned
  | .forEach _ iterable body => iterable.unscanned ++ body.unscanned
  | .compare subject arms => subject.nodes ++ arms.nodes
  | .returnVal val => val.unscanned
  | .defer stmt => stmt.nodes
  | .bool _ | .name _ _ | .returnVoid | .breakLoop | .continueLoop => []

def Branches.unscanned : Branches → List Expr
  | .noElse => []
  | .elseBody body => body.unscanned
  | .branch cond body rest => cond.unscanned ++ body.unscanned ++ rest.unscanned

def unscannedAll : List Expr → List Expr
  | [] => []
  | e :: es => e.unscanned ++ unscannedAll es

end

def Expr.IsTry : Expr → Prop
  | .tryExpr _ => True
  | _ => False

/-- Nothing that belies a warning stands where the lints do not look. -/
def Expr.InSight : Expr → Prop
  | .forRange _ s _ _ step body => ∀ n ∈ step.unscanned ++ body.unscanned, ¬ n.Writes s
  | .whileLoop _ body | .doWhile body _ => ∀ n ∈ body.nodes, ¬ n.IsTry
  | _ => True

/-! ### The scan for writes -/

section

variable {varName : String} {s : ℕ}

theorem isTargetVar_of_name {x : String} {children : List Expr} (hx : x = varName)
    (h : .name x s ∈ children.getLast?) :
    children.getLast?.any (·.isTargetVar varName) = true := by
  rw [Option.mem_def] at h
  simp [h, Expr.isTargetVar, hx]

theorem name_mem_nodesAll {x : String} : ∀ {children : List Expr},
    .name x s ∈ children.getLast? → .name x s ∈ nodesAll children
  | [e], h => by
    obtain rfl : e = .name x s := by simpa using h
    simp [nodesAll, Expr.nodes]
  | e :: e' :: es, h => by
    rw [List.getLast?_cons_cons] at h
    exact List.mem_append_right _ (name_mem_nodesAll h)

/-- A node of its own writes nothing that the scan would not see. -/
theorem not_writes_of_scan {children : List Expr}
    (hscan : children.getLast?.any (·.isTargetVar varName) = false)
    (hnames : ∀ x, .name x s ∈ nodesAll children → x = varName) :
    ¬ ∃ x, .name x s ∈ children.getLast? := by
  rintro ⟨x, hx⟩
  rw [isTargetVar_of_name (hnames x (name_mem_nodesAll hx)) hx] at hscan
  cases hscan

mutual

/-- Where the scan answers no, and no write stands where it does not look, there is none. -/
theorem Expr.not_writes_of_scan : ∀ e : Expr, e.mayModifyVariable varName = false →
    (∀ n ∈ e.unscanned, ¬ n.Writes s) → (∀ x, .name x s ∈ e.nodes → x = varName) →
    ∀ n ∈ e.nodes, ¬ n.Writes s
  | .bool _, _, _, _ | .name _ _, _, _, _ | .returnVoid, _, _, _ | .breakLoop, _, _, _
  | .continueLoop, _, _, _ => by simp [Expr.nodes, Expr.Writes]
  | .node kind children, hscan, hrest, hnames => by
    simp only [Expr.nodes, List.mem_cons, reduceCtorEq, false_or] at hnames
    simp only [Expr.nodes, List.forall_mem_cons]
    cases kind
    case assignment | compoundAssignment | postfixOp =>
      simp only [Expr.mayModifyVariable, Bool.or_eq_false_iff] at hscan
      exact ⟨Ast.not_writes_of_scan hscan.1 hnames,
        not_writes_of_scanAll children hscan.2 hrest hnames⟩
    case addressOf => cases hscan
    case call | methodCall | binary | unary =>
      exact ⟨id, not_writes_of_scanAll children hscan hrest hnames⟩
    all_goals exact ⟨id, hrest⟩
  | .logical _ lhs rhs, hscan, hrest, hnames => by
    simp only [Expr.nodes, List.mem_cons, List.mem_append, reduceCtorEq, false_or,
      or_imp, forall_and] at hnames
    simp only [Expr.mayModifyVariable, Bool.or_eq_false_iff] at hscan
    simp only [Expr.unscanned, List.forall_mem_append] at hrest
    simp only [Expr.nodes, List.forall_mem_cons, List.forall_mem_append]
    exact ⟨id, Expr.not_writes_of_scan lhs hscan.1 hrest.1 hnames.1,
      Expr.not_writes_of_scan rhs hscan.2 hrest.2 hnames.2⟩
  | .varDecl _ _ _, _, hrest, _ | .recoverProduce _ _, _, hrest, _
  | .recoverRun _ _ _, _, hrest, _ | .tryExpr _, _, hrest, _ | .unsafeBlock _, _, hrest, _
  | .doWhile _ _, _, hrest, _ | .compare _ _, _, hrest, _ | .defer _, _, hrest, _ => by
    simp only [Expr.nodes, List.forall_mem_cons]
    exact ⟨id, hrest⟩
  | .block exprs, hscan, hrest, hnames => by
    simp only [Expr.nodes, List.mem_cons, reduceCtorEq, false_or] at hnames
    simp only [Expr.nodes, List.forall_mem_cons]
    exact ⟨id, not_writes_of_scanAll exprs hscan hrest hnames⟩
  | .ifElse branches, hscan, hrest, hnames => by
    simp only [Expr.nodes, List.mem_cons, reduceCtorEq, false_or] at hnames
    simp only [Expr.nodes, List.forall_mem_cons]
    exact ⟨id, Branches.not_writes_of_scan branches hscan hrest hnames⟩
  | .whileLoop cond body, hscan, hrest, hnames => by
    simp only [Expr.nodes, List.mem_cons, List.mem_append, reduceCtorEq, false_or,
      or_imp, forall_and] at hnames
    simp only [Expr.mayModifyVariable, Bool.or_eq_false_iff] at hscan
    simp only [Expr.unscanned, List.forall_mem_append] at hrest
    simp only [Expr.nodes, List.forall_mem_cons, List.forall_mem_append]
    exact ⟨id, Expr.not_writes_of_scan cond hscan.1 hrest.1 hnames.1,
      Expr.not_writes_of_scan body hscan.2 hrest.2 hnames.2⟩
  | .forRange _ _ start stop step body, hscan, hrest, hnames => by
    simp only [Expr.nodes, List.mem_cons, List.mem_append, reduceCtorEq, false_or,
      or_imp, forall_and] at hnames
    simp only [Expr.mayModifyVariable, Bool.or_eq_false_iff] at hscan
    simp only [Expr.unscanned, List.forall_mem_append] at hrest
    simp only [Expr.nodes, List.forall_mem_cons, List.forall_mem_append]
    obtain ⟨⟨⟨hstart, hstop⟩, hstep⟩, hbody⟩ := hscan
    exact ⟨id, ⟨⟨Expr.not_writes_of_scan start hstart hrest.1.1.1 hnames.1.1.1,
      Expr.not_writes_of_scan stop hstop hrest.1.1.2 hnames.1.1.2⟩,
      Expr.not_writes_of_scan step hstep hrest.1.2 hnames.1.2⟩,
      Expr.not_writes_of_scan body hbody hrest.2 hnames.2⟩
  | .forEach _ iterable body, hscan, hrest, hnames => by
    simp only [Expr.nodes, List.mem_cons, List.mem_append, reduceCtorEq, false_or,
      or_imp, forall_and] at hnames
    simp only [Expr.mayModifyVariable, Bool.or_eq_false_iff] at hscan
    simp only [Expr.unscanned, List.forall_mem_append] at hrest
    simp only [Expr.nodes, List.forall_mem_cons, List.forall_mem_append]
    exact ⟨id, Expr.not_writes_of_scan iterable hscan.1 hrest.1 hnames.1,
      Expr.not_writes_of_scan body hscan.2 hrest.2 hnames.2⟩
  | .returnVal val, hscan, hrest, hnames => by
    simp only [Expr.nodes, List.mem_cons, reduceCtorEq, false_or] at hnames
    simp only [Expr.nodes, List.forall_mem_cons]
    exact ⟨id, Expr.not_writes_of_scan val hscan hrest hnames⟩

theorem Branches.not_writes_of_scan : ∀ b : Branches, b.mayModifyVariable varName = false →
    (∀ n ∈ b.unscanned, ¬ n.Writes s) → (∀ x, .name x s ∈ b.nodes → x = varName) →
    ∀ n ∈ b.nodes, ¬ n.Writes s
  | .noElse, _, _, _ => by simp [Branches.nodes]
  | .elseBody body, hscan, hrest, hnames => Expr.not_writes_of_scan body hscan hrest hnames
  | .branch cond body rest, hscan, hrest, hnames => by
    simp only [Branches.nodes, List.mem_append, or_imp, forall_and] at hnames
    simp only [Branches.mayModifyVariable, Bool.or_eq_false_iff] at hscan
    simp only [Branches.unscanned, List.forall_mem_append] at hrest
    simp only [Branches.nodes, List.forall_mem_append]
    exact ⟨⟨Expr.not_writes_of_scan cond hscan.1.1 hrest.1.1 hnames.1.1,
      Expr.not_writes_of_scan body hscan.1.2 hrest.1.2 hnames.1.2⟩,
      Branches.not_writes_of_scan rest hscan.2 hrest.2 hnames.2⟩

theorem not_writes_of_scanAll : ∀ l : List Expr, anyMayModify varName l = false →
    (∀ n ∈ unscannedAll l, ¬ n.Writes s) → (∀ x, .name x s ∈ nodesAll l → x = varName) →
    ∀ n ∈ nodesAll l, ¬ n.Writes s
  | [], _, _, _ => by simp [nodesAll]
  | e :: es, hscan, hrest, hnames => by
    simp only [nodesAll, List.mem_append, or_imp, forall_and] at hnames
    simp only [anyMayModify, Bool.or_eq_false_iff] at hscan
    simp only [unscannedAll, List.forall_mem_append] at hrest
    simp only [nodesAll, List.forall_mem_append]
    exact ⟨Expr.not_writes_of_scan e hscan.1 hrest.1 hnames.1,
      not_writes_of_scanAll es hscan.2 hrest.2 hnames.2⟩

end

/-! ### Runs -/

theorem own_keeps {n : Expr} (h : ¬ n.Writes s) : Shows (Event.Keeps s) n.own := by
  cases n with
  | node kind children => exact shows_op h
  | _ => first | exact shows_jump _ | exact shows_op id

/-- A tree without writes to a variable leaves it as it is. -/
theorem Expr.keeps_of_not_writes {e : Expr} (h : ∀ n ∈ e.nodes, ¬ n.Writes s) :
    Shows (Event.Keeps s) (e.run .bare) :=
  Expr.closed_run closed_shows e fun n hn => own_keeps (h n hn)

end

theorem own_settles {n : Expr} (hexit : n.isLoopExit = false) (htry : ¬ n.IsTry) :
    Within (fun o => o = .normal ∨ o = .halts) n.own := by
  cases n with
  | returnVoid | returnVal | breakLoop | continueLoop => cases hexit
  | tryExpr => exact absurd trivial htry
  | bool | name | node | varDecl => exact within_op (.inl rfl) (.inr rfl)
  | forEach => exact within_jump (.inr rfl)
  | _ => exact within_skip (.inl rfl)

/-- A tree without jumps comes to its end or is cut off. -/
theorem Expr.settles_of_no_exit {e : Expr} (hexit : e.containsLoopExit = false)
    (htry : ∀ n ∈ e.nodes, ¬ n.IsTry) :
    Within (fun o => o = .normal ∨ o = .halts) (e.run .bare) := by
  refine Expr.closed_run closed_settles e fun n hn => own_settles ?_ (htry n hn)
  simpa using List.any_eq_false.mp hexit n hn

/-- A loop whose test lets no run leave, and whose parts do not jump, ends only where it is cut
off. -/
theorem loop_halts {ε : Type} {P : Parts ε} (hleave : ¬ P.canLeave) (hstop : ¬ P.canStop)
    (htest : Within (fun o => o = .normal ∨ o = .halts) P.test)
    (hbody : Within (fun o => o = .normal ∨ o = .halts) P.body)
    (hstep : Within (fun o => o = .normal ∨ o = .halts) P.step) : Within (· = .halts) (Loop P) := by
  intro t o h
  induction h with
  | leave hc => exact absurd hc hleave
  | testEnds ht hne => exact (htest _ _ ht).resolve_left hne
  | breaks _ _ hb => exact absurd (hbody _ _ hb) (by decide)
  | bodyEnds _ _ hb hne => exact (hbody _ _ hb).resolve_left hne
  | stepEnds _ _ _ _ hs hne => exact (hstep _ _ hs).resolve_left hne
  | stop _ _ _ _ _ hc => exact absurd hc hstop
  | next _ _ _ _ _ _ _ ih => exact ih

theorem Expr.stuck_of_lintFor {e : Expr} (hr : e.Resolved) (hs : e.InSight)
    (h : e.lintFor = true) : e.Stuck := by
  cases e with
  | forRange varName s start stop step body =>
    have hscan : step.mayModifyVariable varName = false ∧
        body.mayModifyVariable varName = false := by
      simpa [Expr.lintFor] using h
    simp only [Expr.InSight, List.forall_mem_append] at hs
    simp only [Expr.Resolved, List.mem_append, or_imp, forall_and] at hr
    constructor
    · exact Expr.keeps_of_not_writes (step.not_writes_of_scan hscan.1 hs.1 hr.1)
    · exact Expr.keeps_of_not_writes (body.not_writes_of_scan hscan.2 hs.2 hr.2)
  | _ => trivial

theorem Expr.endless_of_lintWhile {e : Expr} (hs : e.InSight) (h : e.lintWhile = true) :
    e.Endless := by
  unfold Expr.lintWhile at h
  split at h
  case h_1 body =>
    have hbody := Expr.settles_of_no_exit ((Bool.not_eq_true' _).mp h) hs
    refine loop_halts (fun hc => hc rfl) id ?_ hbody (within_skip (.inl rfl))
    exact within_seq (within_seq (within_op (.inl rfl) (.inr rfl)) (within_skip (.inl rfl)))
      (within_skip (.inl rfl))
  case h_2 body =>
    have hbody := Expr.settles_of_no_exit ((Bool.not_eq_true' _).mp h) hs
    refine loop_halts id (fun hc => hc rfl) (within_skip (.inl rfl)) hbody ?_
    exact within_seq (within_seq (within_op (.inl rfl) (.inr rfl)) (within_skip (.inl rfl)))
      (within_skip (.inl rfl))
  case h_3 => cases h

/-- `for (i in 0..10) { j = 5; }`, where the step does nothing. -/
def writesAnother : Expr :=
  .forRange "i" 0 (.node (.number 0) []) (.node (.number 10) []) (.block [])
    (.block [.node .assignment [.node (.number 5) [], .name "j" 1]])

/-- `i = 5` -/
def assignLoopVar : Expr := .node .assignment [.node (.number 5) [], .name "i" 0]

/-- The loop variable is written in an `unsafe` block. -/
def hiddenWrite : Expr :=
  .forRange "i" 0 (.node (.number 0) []) (.node (.number 10) []) (.block [])
    (.unsafeBlock (.block [assignLoopVar]))

/-- `while (true) { try next(); }` -/
def hiddenExit : Expr :=
  .whileLoop (.bool true) (.block [.tryExpr (.node (.call "next") [])])

end Ast

end TurfLang
