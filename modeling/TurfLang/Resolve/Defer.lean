import TurfLang.Frontend.Ast

/-!
# `ResolverStmt.cpp`, `ResolverCall.cpp`: what a deferred statement may not do

A deferred statement runs while its block is being left, so it may not leave anything itself. For
`try` the Resolver counts the `defer`s around the node; for the jumps it searches the statement, but
only through some of the constructors that hold a statement. It raises an error exactly where a
`try`, or a jump that this search reaches, would leave a deferred statement.
-/

namespace TurfLang.Resolve

open Ast

/-- The nodes that `FindEscapingControlFlow` finds. -/
inductive Jump
  | return_
  | break_
  | continue_
  deriving DecidableEq

/-- The errors of the rule about deferred statements. -/
inductive ResolverError
  | deferControlFlow (kind : Jump)
  | tryMisuse
  deriving DecidableEq

mutual

def findEscapingControlFlow : Expr → (inLoop : Bool) → Option Jump
  | .returnVoid, _ => some .return_
  | .returnVal _, _ => some .return_
  | .breakLoop, inLoop => if inLoop then none else some .break_
  | .continueLoop, inLoop => if inLoop then none else some .continue_
  | .block exprs, inLoop => findInBlock exprs inLoop
  | .ifElse branches, inLoop => findInBranches branches inLoop
  | .whileLoop _ body, _ => findEscapingControlFlow body true
  | .forRange _ _ _ _ _ body, _ => findEscapingControlFlow body true
  | .forEach _ _ body, _ => findEscapingControlFlow body true
  | .recoverRun _ _ block, inLoop => findEscapingControlFlow block inLoop
  | _, _ => none

/-- The loop over `Blk->getExpressions()`. -/
def findInBlock : List Expr → (inLoop : Bool) → Option Jump
  | [], _ => none
  | child :: rest, inLoop => findEscapingControlFlow child inLoop <|> findInBlock rest inLoop

/-- The loop over `If->getBranches()`, and the `else`. -/
def findInBranches : Branches → (inLoop : Bool) → Option Jump
  | .noElse, _ => none
  | .elseBody body, inLoop => findEscapingControlFlow body inLoop
  | .branch _ body rest, inLoop =>
    findEscapingControlFlow body inLoop <|> findInBranches rest inLoop

end

/-- The end of `visitDefer`. -/
def checkDeferred (stmt : Expr) : Except ResolverError Unit :=
  match findEscapingControlFlow stmt false with
  | some kind => .error (.deferControlFlow kind)
  | none => .ok ()

mutual

/-- The visit of a node, inside so many `defer`s. -/
def visit (deferDepth : ℕ) : Expr → Except ResolverError Unit
  | .bool _ => .ok ()
  | .name _ _ => .ok ()
  | .node _ children => visitAll deferDepth children
  | .logical _ lhs rhs => do visit deferDepth lhs; visit deferDepth rhs
  | .varDecl _ _ inits => visitAll deferDepth inits
  | .recoverProduce wrapped produce => do visit deferDepth wrapped; visit deferDepth produce
  | .recoverRun wrapped _ block => do visit deferDepth wrapped; visit deferDepth block
  | .tryExpr operand => do
    if 0 < deferDepth then throw .tryMisuse
    visit deferDepth operand
  | .block exprs => visitAll deferDepth exprs
  | .unsafeBlock body => visit deferDepth body
  | .ifElse branches => visitBranches deferDepth branches
  | .whileLoop cond body => do visit deferDepth cond; visit deferDepth body
  | .doWhile body cond => do visit deferDepth body; visit deferDepth cond
  | .forRange _ _ start stop step body => do
    visit deferDepth start
    visit deferDepth stop
    visit deferDepth step
    visit deferDepth body
  | .forEach _ iterable body => do visit deferDepth iterable; visit deferDepth body
  | .compare subject arms => do visit deferDepth subject; visitArms deferDepth arms
  | .returnVoid => .ok ()
  | .returnVal val => visit deferDepth val
  | .breakLoop => .ok ()
  | .continueLoop => .ok ()
  | .defer stmt => do visit (deferDepth + 1) stmt; checkDeferred stmt

def visitAll (deferDepth : ℕ) : List Expr → Except ResolverError Unit
  | [] => .ok ()
  | child :: rest => do visit deferDepth child; visitAll deferDepth rest

def visitBranches (deferDepth : ℕ) : Branches → Except ResolverError Unit
  | .noElse => .ok ()
  | .elseBody body => visit deferDepth body
  | .branch cond body rest => do
    visit deferDepth cond
    visit deferDepth body
    visitBranches deferDepth rest

def visitArms (deferDepth : ℕ) : Arms → Except ResolverError Unit
  | .noOtherBody _ => .ok ()
  | .otherBody body => visit deferDepth body
  | .arm _ headers body rest => do
    visitValues deferDepth headers
    visitGuards deferDepth headers
    visit deferDepth body
    visitArms deferDepth rest

/-- The loop over `Arm.Values`. -/
def visitValues (deferDepth : ℕ) : Headers → Except ResolverError Unit
  | .nil => .ok ()
  | .header val rest => do visit deferDepth val; visitValues deferDepth rest
  | .guarded val _ rest => do visit deferDepth val; visitValues deferDepth rest

/-- The loop over `Arm.Guards`. -/
def visitGuards (deferDepth : ℕ) : Headers → Except ResolverError Unit
  | .nil => .ok ()
  | .header _ rest => visitGuards deferDepth rest
  | .guarded _ guard rest => do visit deferDepth guard; visitGuards deferDepth rest

end

/-- `visitDefer`. -/
def visitDefer (deferDepth : ℕ) (stmt : Expr) : Except ResolverError Unit := do
  visit (deferDepth + 1) stmt
  checkDeferred stmt

/-! ### The parts of a node -/

/-- The parts of the headers of an arm. -/
def headerParts : Headers → List Expr
  | .nil => []
  | .header val rest => val :: headerParts rest
  | .guarded val guard rest => val :: guard :: headerParts rest

def armParts : Arms → List Expr
  | .noOtherBody _ => []
  | .otherBody body => [body]
  | .arm _ headers body rest => headerParts headers ++ body :: armParts rest

def branchParts : Branches → List Expr
  | .noElse => []
  | .elseBody body => [body]
  | .branch cond body rest => cond :: body :: branchParts rest

def branchBodies : Branches → List Expr
  | .noElse => []
  | .elseBody body => [body]
  | .branch _ body rest => body :: branchBodies rest

/-- Parts that a loop around them would not stop a jump out of. -/
def plain (parts : List Expr) : List (Bool × Expr) := parts.map fun part => (false, part)

/-- The parts of a node, each with whether it is what a loop repeats. -/
def parts : Expr → List (Bool × Expr)
  | .node _ children => plain children
  | .logical _ lhs rhs => plain [lhs, rhs]
  | .varDecl _ _ inits => plain inits
  | .recoverProduce wrapped produce => plain [wrapped, produce]
  | .recoverRun wrapped _ block => plain [wrapped, block]
  | .tryExpr operand => plain [operand]
  | .block exprs => plain exprs
  | .unsafeBlock body => plain [body]
  | .ifElse branches => plain (branchParts branches)
  | .whileLoop cond body => [(false, cond), (true, body)]
  | .doWhile body cond => [(true, body), (false, cond)]
  | .forRange _ _ start stop step body =>
    [(false, start), (false, stop), (false, step), (true, body)]
  | .forEach _ iterable body => [(false, iterable), (true, body)]
  | .compare subject arms => plain (subject :: armParts arms)
  | .returnVal val => plain [val]
  | .defer stmt => plain [stmt]
  | .bool _ | .name _ _ | .returnVoid | .breakLoop | .continueLoop => []

/-- The parts that a statement shares with the deferred statement it belongs to: a `defer` inside
it defers a statement of its own. -/
def ownParts : Expr → List (Bool × Expr)
  | .defer _ => []
  | e => parts e

/-- The parts that `FindEscapingControlFlow` goes on to. -/
def scannedParts : Expr → List (Bool × Expr)
  | .block exprs => plain exprs
  | .ifElse branches => plain (branchBodies branches)
  | .whileLoop _ body => [(true, body)]
  | .forRange _ _ _ _ _ body => [(true, body)]
  | .forEach _ _ body => [(true, body)]
  | .recoverRun _ _ block => plain [block]
  | _ => []

/-- One node stands in another, reached through parts of one kind, and whether what a loop repeats
is among them. -/
inductive Within (step : Expr → List (Bool × Expr)) : Expr → Bool → Expr → Prop
  | here (e : Expr) : Within step e false e
  | part {e part node : Expr} {repeated inLoop : Bool} (h : (repeated, part) ∈ step e)
      (hs : Within step part inLoop node) : Within step e (repeated || inLoop) node

/-- A node leaves the statement that it stands in. -/
def Leaves : (inLoop : Bool) → Expr → Prop
  | _, .returnVoid => True
  | _, .returnVal _ => True
  | inLoop, .breakLoop => inLoop = false
  | inLoop, .continueLoop => inLoop = false
  | _, _ => False

variable {step step' : Expr → List (Bool × Expr)} {e node : Expr} {b : Bool}

theorem Within.mono (h : Within step e b node) (hle : ∀ e, step e ⊆ step' e) :
    Within step' e b node := by
  induction h with
  | here e => exact .here e
  | part h _ ih => exact .part (hle _ h) ih

theorem mem_plain {l : List Expr} {part : Expr} : (b, part) ∈ plain l ↔ b = false ∧ part ∈ l := by
  simp [plain, eq_comm, and_comm]

theorem branchBodies_subset (branches : Branches) : branchBodies branches ⊆ branchParts branches := by
  cases branches with
  | noElse => exact List.Subset.refl _
  | elseBody => exact List.Subset.refl _
  | branch cond body rest =>
    exact List.subset_cons_of_subset _ (List.cons_subset_cons _ (branchBodies_subset rest))

theorem scannedParts_subset (e : Expr) : scannedParts e ⊆ ownParts e := by
  cases e with
  | block => exact List.Subset.refl _
  | ifElse branches => exact List.map_subset _ (branchBodies_subset branches)
  | whileLoop | forEach | forRange => intro p hp; simp_all [scannedParts, ownParts, parts]
  | recoverRun => intro p hp; simp_all [scannedParts, ownParts, parts, plain]
  | _ => exact List.nil_subset _

theorem ownParts_subset (e : Expr) : ownParts e ⊆ parts e := by
  cases e <;> first | exact List.Subset.refl _ | exact List.nil_subset _

/-! ### Parts are smaller -/

theorem sizeOf_headerParts {part : Expr} : ∀ {headers : Headers}, part ∈ headerParts headers →
    sizeOf part < sizeOf headers
  | .header val rest, h => by
    rcases List.mem_cons.1 h with rfl | h
    · simp +arith
    · have := sizeOf_headerParts h
      simp only [Headers.header.sizeOf_spec]
      omega
  | .guarded val guard rest, h => by
    rcases List.mem_cons.1 h with rfl | h
    · simp +arith
    · rcases List.mem_cons.1 h with rfl | h
      · simp +arith
      · have := sizeOf_headerParts h
        simp only [Headers.guarded.sizeOf_spec]
        omega

theorem sizeOf_branchParts {part : Expr} : ∀ {branches : Branches}, part ∈ branchParts branches →
    sizeOf part < sizeOf branches
  | .elseBody body, h => by
    obtain rfl := List.mem_singleton.1 h
    simp +arith
  | .branch cond body rest, h => by
    rcases List.mem_cons.1 h with rfl | h
    · simp +arith
    · rcases List.mem_cons.1 h with rfl | h
      · simp +arith
      · have := sizeOf_branchParts h
        simp only [Branches.branch.sizeOf_spec]
        omega

theorem sizeOf_armParts {part : Expr} : ∀ {arms : Arms}, part ∈ armParts arms →
    sizeOf part < sizeOf arms
  | .otherBody body, h => by
    obtain rfl := List.mem_singleton.1 h
    simp +arith
  | .arm bindings headers body rest, h => by
    rcases List.mem_append.1 h with h | h
    · have := sizeOf_headerParts h
      simp only [Arms.arm.sizeOf_spec]
      omega
    · rcases List.mem_cons.1 h with rfl | h
      · simp +arith
      · have := sizeOf_armParts h
        simp only [Arms.arm.sizeOf_spec]
        omega

theorem sizeOf_lt_of_mem_parts {part : Expr} (h : (b, part) ∈ parts e) :
    sizeOf part < sizeOf e := by
  cases e with
  | node | varDecl | block =>
    have := List.sizeOf_lt_of_mem (mem_plain.1 h).2
    simp +arith
    omega
  | ifElse branches =>
    have := sizeOf_branchParts (mem_plain.1 h).2
    simp +arith
    omega
  | compare subject arms =>
    rcases List.mem_cons.1 (mem_plain.1 h).2 with rfl | h
    · simp +arith
    · have := sizeOf_armParts h
      simp +arith
      omega
  | bool | name | returnVoid | breakLoop | continueLoop => cases h
  | _ =>
    simp [parts, plain] at h
    simp +arith
    grind

/-- Induction over a tree by the parts of its nodes. -/
theorem parts_induction {P : Expr → Prop} (h : ∀ e, (∀ b part, (b, part) ∈ parts e → P part) → P e)
    (e : Expr) : P e := by
  induction hn : sizeOf e using Nat.strong_induction_on generalizing e with
  | h n ih =>
    subst hn
    exact h e fun b part hpart => ih _ (sizeOf_lt_of_mem_parts hpart) part rfl

/-- A node stands in itself and in what its parts are in. -/
theorem within_iff :
    Within step e b node ↔ (b = false ∧ node = e) ∨
      ∃ repeated part inLoop, (repeated, part) ∈ step e ∧ Within step part inLoop node ∧
        b = (repeated || inLoop) := by
  constructor
  · rintro (⟨e⟩ | ⟨h, hs⟩)
    · exact .inl ⟨rfl, rfl⟩
    · exact .inr ⟨_, _, _, h, hs, rfl⟩
  · rintro (⟨rfl, rfl⟩ | ⟨repeated, part, inLoop, h, hs, rfl⟩)
    · exact .here _
    · exact .part h hs

/-! ### The search -/

theorem findInBlock_eq_none {inLoop : Bool} {exprs : List Expr} :
    findInBlock exprs inLoop = none ↔ ∀ e ∈ exprs, findEscapingControlFlow e inLoop = none := by
  induction exprs with
  | nil => simp [findInBlock]
  | cons child rest ih => simp [findInBlock, ih]

theorem findInBranches_eq_none {inLoop : Bool} (branches : Branches) :
    findInBranches branches inLoop = none ↔
      ∀ e ∈ branchBodies branches, findEscapingControlFlow e inLoop = none := by
  cases branches with
  | noElse => simp [findInBranches, branchBodies]
  | elseBody body => simp [findInBranches, branchBodies]
  | branch cond body rest =>
    simp [findInBranches, branchBodies, findInBranches_eq_none rest]

/-- One node of the search: it does not leave by itself, and nothing is found in its parts. -/
theorem find_eq_none_parts (e : Expr) (inLoop : Bool) :
    findEscapingControlFlow e inLoop = none ↔ ¬ Leaves inLoop e ∧
      ∀ repeated part, (repeated, part) ∈ scannedParts e →
        findEscapingControlFlow part (inLoop || repeated) = none := by
  cases e with
  | block exprs =>
    simp [findEscapingControlFlow, findInBlock_eq_none, scannedParts, mem_plain, Leaves]
  | ifElse branches =>
    simp [findEscapingControlFlow, findInBranches_eq_none, scannedParts, mem_plain, Leaves]
  | breakLoop | continueLoop =>
    cases inLoop <;> simp [findEscapingControlFlow, scannedParts, Leaves]
  | _ => simp [findEscapingControlFlow, scannedParts, mem_plain, Leaves]

/-- The search finds nothing exactly if nothing leaves that is reached through scanned parts. -/
theorem find_eq_none_iff (e : Expr) (inLoop : Bool) :
    findEscapingControlFlow e inLoop = none ↔
      ∀ b node, Within scannedParts e b node → ¬ Leaves (inLoop || b) node := by
  induction e using parts_induction generalizing inLoop with
  | h e ih =>
    have hpart : ∀ repeated part, (repeated, part) ∈ scannedParts e →
        (findEscapingControlFlow part (inLoop || repeated) = none ↔
          ∀ b node, Within scannedParts part b node → ¬ Leaves (inLoop || repeated || b) node) :=
      fun repeated part hmem =>
        ih repeated part (ownParts_subset e (scannedParts_subset e hmem)) (inLoop || repeated)
    rw [find_eq_none_parts]
    constructor
    · rintro ⟨hself, hparts⟩ b node hwithin
      rcases within_iff.1 hwithin with ⟨rfl, rfl⟩ | ⟨repeated, part, b', hmem, hs, rfl⟩
      · rwa [Bool.or_false]
      · rw [← Bool.or_assoc]
        exact (hpart repeated part hmem).1 (hparts repeated part hmem) b' node hs
    · intro h
      refine ⟨?_, fun repeated part hmem => (hpart repeated part hmem).2 fun b node hs => ?_⟩
      · simpa using h false e (.here e)
      · rw [Bool.or_assoc]
        exact h _ node (.part hmem hs)

/-! ### The visit -/

theorem bind_eq_ok {x : Except ResolverError Unit} {f : Unit → Except ResolverError Unit} :
    (x >>= f) = .ok () ↔ x = .ok () ∧ f () = .ok () := by
  cases x with
  | error err => exact iff_of_false (fun h => nomatch h) (fun h => nomatch h.1)
  | ok u => exact ⟨fun h => ⟨rfl, h⟩, And.right⟩

theorem checkDeferred_eq_ok {stmt : Expr} :
    checkDeferred stmt = .ok () ↔ findEscapingControlFlow stmt false = none := by
  unfold checkDeferred
  cases findEscapingControlFlow stmt false <;> simp

variable {d : ℕ}

theorem visitAll_eq_ok {exprs : List Expr} :
    visitAll d exprs = .ok () ↔ ∀ e ∈ exprs, visit d e = .ok () := by
  induction exprs with
  | nil => simp [visitAll]
  | cons child rest ih => simp [visitAll, bind_eq_ok, ih]

theorem visitBranches_eq_ok (branches : Branches) :
    visitBranches d branches = .ok () ↔ ∀ e ∈ branchParts branches, visit d e = .ok () := by
  cases branches with
  | noElse => simp [visitBranches, branchParts]
  | elseBody body => simp [visitBranches, branchParts]
  | branch cond body rest =>
    simp [visitBranches, branchParts, bind_eq_ok, visitBranches_eq_ok rest]

theorem visitHeaders_eq_ok : ∀ {headers : Headers},
    (visitValues d headers = .ok () ∧ visitGuards d headers = .ok ()) ↔
      ∀ e ∈ headerParts headers, visit d e = .ok ()
  | .nil => by simp [visitValues, visitGuards, headerParts]
  | .header val rest => by
    simp [visitValues, visitGuards, headerParts, bind_eq_ok, and_assoc,
      ← @visitHeaders_eq_ok rest]
  | .guarded val guard rest => by
    simp only [visitValues, visitGuards, headerParts, bind_eq_ok, List.forall_mem_cons,
      ← @visitHeaders_eq_ok rest]
    tauto

theorem visitArms_eq_ok (arms : Arms) :
    visitArms d arms = .ok () ↔ ∀ e ∈ armParts arms, visit d e = .ok () := by
  cases arms with
  | noOtherBody => simp [visitArms, armParts]
  | otherBody body => simp [visitArms, armParts]
  | arm firstLine headers body rest =>
    simp only [visitArms, armParts, bind_eq_ok, List.forall_mem_append, List.forall_mem_cons,
      ← visitHeaders_eq_ok, ← visitArms_eq_ok rest, and_assoc]

/-- How many `defer`s the parts of a node are in. -/
def depthIn (d : ℕ) : Expr → ℕ
  | .defer _ => d + 1
  | _ => d

/-- One node of the visit. -/
theorem visit_eq_ok_parts (e : Expr) :
    visit d e = .ok () ↔ (∀ operand, e = .tryExpr operand → d = 0) ∧
      (∀ stmt, e = .defer stmt → findEscapingControlFlow stmt false = none) ∧
      ∀ b part, (b, part) ∈ parts e → visit (depthIn d e) part = .ok () := by
  cases e with
  | node | varDecl | block => simp [visit, visitAll_eq_ok, parts, mem_plain, depthIn]
  | ifElse => simp [visit, visitBranches_eq_ok, parts, mem_plain, depthIn]
  | compare => simp [visit, visitArms_eq_ok, bind_eq_ok, parts, mem_plain, depthIn]
  | defer stmt => simp [visit, bind_eq_ok, checkDeferred_eq_ok, parts, mem_plain, depthIn, and_comm]
  | tryExpr operand =>
    cases d <;> simp [visit, bind_eq_ok, parts, mem_plain, depthIn]
  | doWhile => simp [visit, bind_eq_ok, parts, depthIn, and_comm]
  | forRange => simp [visit, bind_eq_ok, parts, depthIn, or_imp, forall_and]
  | _ => simp [visit, bind_eq_ok, parts, plain, depthIn]

/-- Inside a `defer` the visit passes exactly if there is no `try` and the search of every deferred
statement finds nothing. -/
theorem visit_eq_ok_iff (e : Expr) (hd : 0 < d) :
    visit d e = .ok () ↔ (∀ b operand, ¬ Within parts e b (.tryExpr operand)) ∧
      ∀ b stmt, Within parts e b (.defer stmt) → findEscapingControlFlow stmt false = none := by
  induction e using parts_induction generalizing d with
  | h e ih =>
    have hdepth : 0 < depthIn d e := by
      cases e <;> first | exact hd | exact Nat.succ_pos d
    have hpart := fun b part hmem => ih b part hmem hdepth
    rw [visit_eq_ok_parts]
    constructor
    · rintro ⟨htry, hdefer, hparts⟩
      refine ⟨fun b operand hwithin => ?_, fun b stmt hwithin => ?_⟩
      · rcases within_iff.1 hwithin with ⟨-, h⟩ | ⟨repeated, part, b', hmem, hs, -⟩
        · exact hd.ne' (htry operand h.symm)
        · exact ((hpart _ part hmem).1 (hparts _ part hmem)).1 b' operand hs
      · rcases within_iff.1 hwithin with ⟨-, h⟩ | ⟨repeated, part, b', hmem, hs, -⟩
        · exact hdefer stmt h.symm
        · exact ((hpart _ part hmem).1 (hparts _ part hmem)).2 b' stmt hs
    · rintro ⟨htry, hdefer⟩
      refine ⟨fun operand h => ?_, fun stmt h => ?_,
        fun b part hmem => (hpart b part hmem).2 ⟨?_, ?_⟩⟩
      · exact absurd (h ▸ .here e) (htry false operand)
      · exact hdefer false stmt (h ▸ .here e)
      · exact fun b' operand hs => htry _ operand (.part hmem hs)
      · exact fun b' stmt hs => hdefer _ stmt (.part hmem hs)

/-! ### Deferred statements -/

/-- The visit of a deferred statement raises an error. -/
def Raises (deferDepth : ℕ) (stmt : Expr) : Prop := visitDefer deferDepth stmt ≠ .ok ()

/-- `deferred` is the statement itself, or one that is deferred inside it. -/
def Deferred (stmt deferred : Expr) : Prop :=
  deferred = stmt ∨ ∃ b, Within parts stmt b (.defer deferred)

def HasTry (stmt : Expr) : Prop := ∃ b operand, Within parts stmt b (.tryExpr operand)

/-- A jump leaves the deferred statement it belongs to, reached through parts of one kind. -/
def JumpsOut (step : Expr → List (Bool × Expr)) (stmt : Expr) : Prop :=
  ∃ deferred b node, Deferred stmt deferred ∧ Within step deferred b node ∧ Leaves b node

theorem visitDefer_eq_ok (deferDepth : ℕ) (stmt : Expr) :
    visitDefer deferDepth stmt = .ok () ↔ ¬ HasTry stmt ∧ ¬ JumpsOut scannedParts stmt := by
  rw [visitDefer, bind_eq_ok, visit_eq_ok_iff stmt (Nat.succ_pos _), checkDeferred_eq_ok]
  constructor
  · rintro ⟨⟨htry, hinner⟩, hself⟩
    refine ⟨fun ⟨b, operand, hwithin⟩ => htry b operand hwithin, ?_⟩
    rintro ⟨deferred, b, node, hdeferred, hwithin, hleaves⟩
    have hnone : findEscapingControlFlow deferred false = none := by
      rcases hdeferred with rfl | ⟨b', hdefer⟩
      · exact hself
      · exact hinner b' deferred hdefer
    exact (find_eq_none_iff deferred false).1 hnone b node hwithin (by rwa [Bool.false_or])
  · rintro ⟨htry, hjump⟩
    have hnone : ∀ deferred, Deferred stmt deferred →
        findEscapingControlFlow deferred false = none := by
      refine fun deferred hdeferred => (find_eq_none_iff deferred false).2 ?_
      intro b node hwithin hleaves
      exact hjump ⟨deferred, b, node, hdeferred, hwithin, by rwa [Bool.false_or] at hleaves⟩
    exact ⟨⟨fun b operand hwithin => htry ⟨b, operand, hwithin⟩,
      fun b deferred hwithin => hnone deferred (.inr ⟨b, hwithin⟩)⟩, hnone stmt (.inl rfl)⟩

theorem raises_iff (deferDepth : ℕ) (stmt : Expr) :
    Raises deferDepth stmt ↔ HasTry stmt ∨ JumpsOut scannedParts stmt := by
  rw [Raises, Ne, visitDefer_eq_ok, ← not_or, not_not]

/-- The Resolver raises an error for a deferred statement with a `try`, or with a jump out of it or
out of a statement deferred inside it, exactly if there is a `try`, or some such jump stands where
only blocks, `if`s, `while`, `for` and `for`-each loops and `recover` blocks are around it. -/
theorem raises_iff_jumpsOut_iff (deferDepth : ℕ) (stmt : Expr) :
    (Raises deferDepth stmt ↔ HasTry stmt ∨ JumpsOut ownParts stmt) ↔
      (JumpsOut ownParts stmt → HasTry stmt ∨ JumpsOut scannedParts stmt) := by
  have hle : JumpsOut scannedParts stmt → JumpsOut ownParts stmt :=
    fun ⟨deferred, b, node, hdeferred, hwithin, hleaves⟩ =>
      ⟨deferred, b, node, hdeferred, hwithin.mono scannedParts_subset, hleaves⟩
  rw [raises_iff]
  constructor
  · exact fun h hjump => h.2 (.inr hjump)
  · exact fun h => ⟨Or.imp_right hle, fun hor => hor.elim .inl h⟩

/-- A `return` in an `unsafe` block leaves the deferred statement, and nothing is raised. -/
theorem not_raises_unsafe_return :
    ¬ (Raises 0 (.unsafeBlock (.block [.returnVoid])) ↔
      HasTry (.unsafeBlock (.block [.returnVoid])) ∨
        JumpsOut ownParts (.unsafeBlock (.block [.returnVoid]))) := by
  intro h
  have hjump : JumpsOut ownParts (.unsafeBlock (.block [.returnVoid])) :=
    ⟨_, _, .returnVoid, .inl rfl, .part (.head _) (.part (.head _) (.here _)), trivial⟩
  exact h.2 (.inr hjump) rfl

end TurfLang.Resolve
