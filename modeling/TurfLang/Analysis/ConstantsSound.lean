import TurfLang.Analysis.ConstantsConverge

/-!
# The constants are right on every path

A path is replayed with concrete values: nothing is known of the variables at its start, an
expression that is not folded may have any value, and a tracked variable is only written by whole
statements. At the end every variable with a constant has that value, when the path starts at an
entry without predecessors and only operations on integers were folded.
-/

namespace TurfLang.ValueRange

/-! ### Values -/

/-- The type `double`: its conversion from integers and its arithmetic. -/
structure Doubles where
  carrier : Type
  ofInt : ℤ → carrier
  arith : BinaryOp → carrier → carrier → carrier

/-- The value of a variable or of an expression. -/
inductive Value (F : Doubles)
  | int (n : ℤ)
  | double (d : F.carrier)
  | other (tag : ℕ)

variable {F : Doubles}

/-- An integer as a `double` or as it is. -/
def constValue (F : Doubles) (isDouble : Bool) (c : ℤ) : Value F :=
  if isDouble then .double (F.ofInt c) else .int c

/-- The conversion of a value to a type: an integer becomes a `double`. -/
def convert (isDouble : Bool) : Value F → Value F
  | .int n => constValue F isDouble n
  | v => v

/-- Integer arithmetic at run time: a result that is not one of 64 bits traps. -/
def checkedArith (op : BinaryOp) (l r : ℤ) : Option ℤ :=
  let checked (c : ℤ) : Option ℤ := if fits 64 c then some c else none
  match op with
  | .add => checked (l + r)
  | .sub => checked (l - r)
  | .mul => checked (l * r)
  | .div => if r = 0 then none else checked (l.tdiv r)
  | .other => none

/-- Arithmetic at run time, in `double` when one operand is. -/
def operate (op : BinaryOp) : Value F → Value F → Option (Value F)
  | .int l, .int r => (checkedArith op l r).map .int
  | .double l, .double r => some (.double (F.arith op l r))
  | .int l, .double r => some (.double (F.arith op (F.ofInt l) r))
  | .double l, .int r => some (.double (F.arith op l (F.ofInt r)))
  | _, _ => none

/-! ### Types -/

section

variable (double : Var → Bool)

/-- Whether the type of an expression is `double`. -/
def Expr.isDouble : Expr → Bool
  | .number (some _) => false
  | .number none => true
  | .var (some x) => double x
  | .var none => false
  | .binary _ lhs rhs => lhs.isDouble || rhs.isDouble
  | .assignment lhs _ => lhs.isDouble
  | .other typeIsDouble => typeIsDouble
  | _ => false

/-- A `double` is not assigned to a place of another type. -/
def Expr.WellTyped : Expr → Prop
  | .binary _ lhs rhs => lhs.WellTyped ∧ rhs.WellTyped
  | .assignment lhs rhs => (lhs.isDouble double = false → rhs.isDouble double = false) ∧ rhs.WellTyped
  | _ => True

/-- The operations that are folded are on integers. -/
def Expr.FoldsIntegers (m : ConstMap) : Expr → Prop
  | .binary op lhs rhs =>
    ((evalConstExpr m (.binary op lhs rhs)).isSome →
      lhs.isDouble double = false ∧ rhs.isDouble double = false) ∧
      lhs.FoldsIntegers m ∧ rhs.FoldsIntegers m
  | .assignment _ rhs => rhs.FoldsIntegers m
  | _ => True

end

/-! ### Replaying -/

/-- The variable a statement writes. -/
def Expr.target : Expr → Option Var
  | .varDecl s _ => s
  | .assignment lhs _ => lhs.resolvedSymbol
  | .compoundAssignment lhs _ => lhs.resolvedSymbol
  | .postfixExpr operand => operand.resolvedSymbol
  | _ => none

/-- The expression whose value a statement writes to its variable. -/
def Expr.source : Expr → Option Expr
  | .varDecl _ initializer => initializer
  | .assignment _ rhs => some rhs
  | _ => none

section

variable (double : Var → Bool) (trackable : Finset Var)

/-- An expression may have a value. What is not folded, and a variable that is not tracked, may have
any. -/
inductive Eval (ρ : Var → Value F) : Expr → Value F → Prop
  | integer (n : ℤ) : Eval ρ (.number (some n)) (.int n)
  | literal (v : Value F) : Eval ρ (.number none) v
  | tracked (x : Var) (hx : x ∈ trackable) : Eval ρ (.var (some x)) (ρ x)
  | untracked (x : Var) (hx : x ∉ trackable) (v : Value F) : Eval ρ (.var (some x)) v
  | unresolved (v : Value F) : Eval ρ (.var none) v
  | arith {op : BinaryOp} {lhs rhs : Expr} {l r v : Value F} (hop : op ≠ .other)
      (hl : Eval ρ lhs l) (hr : Eval ρ rhs r) (hv : operate op l r = some v) :
      Eval ρ (.binary op lhs rhs) v
  | otherBinary (lhs rhs : Expr) (v : Value F) : Eval ρ (.binary .other lhs rhs) v
  | assignment {lhs rhs : Expr} {v : Value F} (hr : Eval ρ rhs v) :
      Eval ρ (.assignment lhs rhs) (convert (lhs.isDouble double) v)
  | compoundAssignment (lhs rhs : Expr) (v : Value F) : Eval ρ (.compoundAssignment lhs rhs) v
  | postfixExpr (operand : Expr) (v : Value F) : Eval ρ (.postfixExpr operand) v
  | varDecl (s : Option Var) (e : Option Expr) (v : Value F) : Eval ρ (.varDecl s e) v
  | other (typeIsDouble : Bool) (v : Value F) : Eval ρ (.other typeIsDouble) v

/-- A statement may take one store to another: a tracked variable keeps its value, except for the
one the statement writes, which gets the value of an expression or any value. -/
structure Step (ρ : Var → Value F) (stmt : Expr) (ρ' : Var → Value F) : Prop where
  keeps : ∀ x ∈ trackable, stmt.target ≠ some x → ρ' x = ρ x
  writes : ∀ x ∈ trackable, stmt.target = some x → ∀ e ∈ stmt.source,
    ∃ v, Eval double trackable ρ e v ∧ ρ' x = convert (double x) v

/-- Statements one after the other. -/
inductive Replay : (Var → Value F) → List Expr → (Var → Value F) → Prop
  | nil (ρ : Var → Value F) : Replay ρ [] ρ
  | snoc {ρ ρ' ρ'' : Var → Value F} {stmts : List Expr} {stmt : Expr} (h : Replay ρ stmts ρ')
      (hstep : Step double trackable ρ' stmt ρ'') : Replay ρ (stmts ++ [stmt]) ρ''

variable (F) in
/-- The value of every variable with a constant is that constant. -/
def Agrees (m : ConstMap) (ρ : Var → Value F) : Prop :=
  ∀ (x : Var) (c : ℤ), m[x]? = some (some c) → ρ x = constValue F (double x) c

/-- A statement is well typed, and what it folds are operations on integers. -/
structure Proper (m : ConstMap) (stmt : Expr) : Prop where
  typed : ∀ x, stmt.target = some x → ∀ e ∈ stmt.source,
    (double x = false → e.isDouble double = false) ∧ e.WellTyped double
  folds : ∀ e ∈ stmt.source, e.FoldsIntegers double m

end

/-! ### One expression -/

theorem fold_eq_some {op : BinaryOp} {l r c : ℤ} (h : fold op l r = some c) :
    op ≠ .other ∧ checkedArith op l r = some c := by
  have hfits : ∀ {d : ℤ}, (if !fits 65 d || !fits 64 d then none else some d) = some c →
      (if fits 64 d then some d else none) = some c := by
    intro d hd
    cases h65 : fits 65 d <;> cases h64 : fits 64 d <;> simp [h65, h64] at hd ⊢
    exact hd
  cases op with
  | add => exact ⟨by simp, hfits h⟩
  | sub => exact ⟨by simp, hfits h⟩
  | mul => exact ⟨by simp, hfits h⟩
  | div =>
    refine ⟨by simp, ?_⟩
    rw [fold] at h
    rw [checkedArith]
    by_cases hr : r = 0
    · simp [hr] at h
    · simp only [hr, if_false, Option.bind_eq_bind, Option.bind_some] at h ⊢
      exact hfits h
  | other => cases h

theorem convert_constValue {place isDouble : Bool} (h : place = false → isDouble = false) (c : ℤ) :
    convert place (constValue F isDouble c) = constValue F place c := by
  cases isDouble with
  | false => rfl
  | true =>
    cases place with
    | false => exact absurd (h rfl) (by simp)
    | true => rfl

variable {double : Var → Bool} {trackable : Finset Var}

/-- A folded expression has no value but its constant. -/
theorem Agrees.eval {m : ConstMap} {ρ : Var → Value F} (h : Agrees F double m ρ)
    (hm : Tracks trackable m) {e : Expr} (ht : e.WellTyped double) (hf : e.FoldsIntegers double m)
    {v : Value F} (hv : Eval double trackable ρ e v) {c : ℤ} (hc : evalConstExpr m e = some c) :
    v = constValue F (e.isDouble double) c := by
  induction hv generalizing c with
  | integer n =>
    obtain rfl : n = c := Option.some.inj hc
    rfl
  | literal v => cases hc
  | tracked x hx => exact h x c (evalConstExpr_var.mp hc)
  | untracked x hx v =>
    have hentry := evalConstExpr_var.mp hc
    exact absurd (hm x (by rw [hentry]; rfl)) hx
  | unresolved v => cases hc
  | @arith op lhs rhs l r v hop hl hr hv ihl ihr =>
    obtain ⟨hint, hfl, hfr⟩ := hf
    obtain ⟨hdl, hdr⟩ := hint (by rw [hc]; rfl)
    obtain ⟨a, b, ha, hb, hfold⟩ := evalConstExpr_binary.mp hc
    have hla := ihl ht.1 hfl ha
    have hrb := ihr ht.2 hfr hb
    rw [hdl, constValue, if_neg (by simp)] at hla
    rw [hdr, constValue, if_neg (by simp)] at hrb
    rw [hla, hrb, operate, (fold_eq_some hfold).2] at hv
    rw [Expr.isDouble, hdl, hdr]
    exact (Option.some.inj hv).symm
  | otherBinary lhs rhs v =>
    obtain ⟨a, b, -, -, hfold⟩ := evalConstExpr_binary.mp hc
    exact absurd rfl (fold_eq_some hfold).1
  | @assignment lhs rhs v hr ih =>
    rw [ih ht.2 hf hc]
    exact convert_constValue ht.1 c
  | compoundAssignment lhs rhs v => cases hc
  | postfixExpr operand v => cases hc
  | varDecl s e v => cases hc
  | other typeIsDouble v => cases hc

/-! ### One statement -/

/-- What a statement makes of the map, by its target and its source. -/
theorem applyTransfer_eq (m : ConstMap) (stmt : Expr) :
    applyTransfer trackable m stmt =
      set trackable m stmt.target (stmt.source.bind (evalConstExpr m)) := by
  cases stmt <;> rfl

theorem Agrees.step {m : ConstMap} {ρ ρ' : Var → Value F} (h : Agrees F double m ρ)
    (hm : Tracks trackable m) {stmt : Expr} (hp : Proper double m stmt)
    (hstep : Step double trackable ρ stmt ρ') :
    Agrees F double (applyTransfer trackable m stmt) ρ' := by
  intro x c hx
  rw [applyTransfer_eq, getElem?_set] at hx
  split_ifs at hx with ht
  · obtain ⟨htarget, hmem⟩ := ht
    obtain ⟨e, he, hc⟩ := Option.bind_eq_some_iff.mp (Option.some.inj hx)
    obtain ⟨v, hv, hρ⟩ := hstep.writes x hmem htarget e he
    obtain ⟨hdouble, htyped⟩ := hp.typed x htarget e he
    rw [hρ, h.eval hm htyped (hp.folds e he) hv hc]
    exact convert_constValue hdouble c
  · have hmem : x ∈ trackable := hm x (by rw [hx]; rfl)
    rw [hstep.keeps x hmem fun htarget => ht ⟨htarget, hmem⟩]
    exact h x c hx

/-! ### A path -/

variable {cfg : CFG Expr}

variable (double trackable cfg) in
/-- Every statement of a block is proper for the map in front of it. -/
def ProperBlock (IN : ℕ → ConstMap) (b : ℕ) : Prop :=
  ∀ pre stmt post, cfg.statements b = pre ++ stmt :: post →
    Proper double (pre.foldl (applyTransfer trackable) (IN b)) stmt

theorem Agrees.replay {m : ConstMap} (hm : Tracks trackable m) {stmts : List Expr}
    {ρ ρ' : Var → Value F} (h : Agrees F double m ρ)
    (hp : ∀ pre stmt post, stmts = pre ++ stmt :: post →
      Proper double (pre.foldl (applyTransfer trackable) m) stmt)
    (hrun : Replay double trackable ρ stmts ρ') :
    Agrees F double (stmts.foldl (applyTransfer trackable) m) ρ' := by
  induction hrun with
  | nil => exact h
  | @snoc ρ' ρ'' stmts stmt _ hstep ih =>
    rw [List.foldl_append]
    refine (ih fun pre s post heq => ?_).step (hm.foldl _) (hp stmts stmt [] rfl) hstep
    exact hp pre s (post ++ [stmt]) (by rw [heq]; simp)

/-- A replay of two lists is a replay of one and then of the other. -/
theorem Replay.split {ρ ρ'' : Var → Value F} {stmts stmts' : List Expr}
    (h : Replay double trackable ρ (stmts ++ stmts') ρ'') :
    ∃ ρ', Replay double trackable ρ stmts ρ' ∧ Replay double trackable ρ' stmts' ρ'' := by
  induction stmts' using List.reverseRecOn generalizing ρ'' with
  | nil => exact ⟨ρ'', by simpa using h, .nil ρ''⟩
  | append_singleton stmts' stmt ih =>
    rw [← List.append_assoc] at h
    generalize hall : stmts ++ stmts' ++ [stmt] = all at h
    cases h with
    | nil => simp at hall
    | snoc h hstep =>
      obtain ⟨rfl, hs⟩ := List.append_inj' hall rfl
      obtain rfl := List.head_eq_of_cons_eq hs
      obtain ⟨ρ', h₁, h₂⟩ := ih h
      exact ⟨ρ', h₁, h₂.snoc hstep⟩

theorem join_const {ms : List ConstMap} {x : Var} {c : ℤ} (h : (join ms)[x]? = some (some c)) :
    ∀ m ∈ ms, m[x]? = some (some c) := by
  cases ms with
  | nil => simp
  | cons first rest =>
    rw [join] at h
    suffices hall : first[x]? = some (some c) ∧ ∀ m ∈ rest, m[x]? = some (some c) from
      List.forall_mem_cons.mpr hall
    induction rest generalizing first with
    | nil => exact ⟨h, by simp⟩
    | cons m rest ih =>
      obtain ⟨hmeet, hrest⟩ := ih _ h
      rw [getElem?_meet, Option.map_eq_some_iff] at hmeet
      obtain ⟨v, hv, hentry⟩ := hmeet
      rw [meetEntry] at hentry
      split_ifs at hentry with hcond
      subst hentry
      exact ⟨hv, List.forall_mem_cons.mpr ⟨hcond.2, hrest⟩⟩

/-- At the end of a path the constants of the block are right. -/
theorem agrees_of_path {s : Facts} (hs : Inv trackable cfg s)
    (hstable : ∀ b < cfg.size, Stable trackable cfg b s)
    (hentry : cfg.predecessors cfg.entryIdx = []) (hp : ∀ b, ProperBlock double trackable cfg s.IN b)
    {bs : List ℕ} {b : ℕ} (h : cfg.Path bs b) {ρ ρ' : Var → Value F}
    (hrun : Replay double trackable ρ (bs.flatMap cfg.statements) ρ') :
    Agrees F double (s.IN b) ρ' := by
  induction h generalizing ρ' with
  | entry =>
    rw [hs.first _ hentry]
    intro x c hx
    simp at hx
  | @step bs p b hpath hb ih =>
    rw [List.flatMap_append, List.flatMap_singleton] at hrun
    obtain ⟨ρ₁, hrun₁, hrun₂⟩ := hrun.split
    obtain ⟨hlt, hltb⟩ := CFG.lt_of_mem_successors hb
    have hmem := CFG.mem_predecessors_iff.mpr hb
    have hm : Tracks trackable (s.IN p) := by
      rw [(hstable p hlt).IN]
      exact hs.newIN_tracks p
    have hout := (ih hrun₁).replay hm (hp p) hrun₂
    intro x c hx
    rw [(hstable b hltb).IN, newIN_of_ne (List.ne_nil_of_mem hmem)] at hx
    have hjoin := join_const hx _ (List.mem_map_of_mem hmem)
    rw [(hstable p hlt).OUT] at hjoin
    exact hout x c hjoin

variable (F double trackable cfg) in
/-- Every replay of every path from the entry to a block leaves each variable with the constant that
`IN` has for it there. -/
def RightOnPaths (IN : ℕ → ConstMap) : Prop :=
  ∀ (bs : List ℕ) (b : ℕ), cfg.Path bs b → ∀ ρ ρ' : Var → Value F,
    Replay double trackable ρ (bs.flatMap cfg.statements) ρ' →
      ∀ (x : Var) (c : ℤ), (IN b)[x]? = some (some c) → ρ' x = constValue F (double x) c

/-- The worklist empties. The constants it ends with are right on every path when the entry has no
predecessors, the statements are well typed and only operations on integers are folded. -/
theorem solveConstants_right (F : Doubles) (double : Var → Bool) (trackable : Finset Var)
    (cfg : CFG Expr) :
    ∃ fuel IN, (∀ fuel' ≥ fuel, solveConstants trackable cfg fuel' = some IN) ∧
      (cfg.predecessors cfg.entryIdx = [] → (∀ b, ProperBlock double trackable cfg IN b) →
        RightOnPaths F double trackable cfg IN) := by
  obtain ⟨fuel, s, hrun, hs, hstable⟩ := exists_solveConstants trackable cfg
  exact ⟨fuel, s.IN, hrun, fun hentry hp bs b hpath ρ ρ' hreplay =>
    agrees_of_path hs hstable hentry hp hpath hreplay⟩

/-! ### Where they are not right -/

/-- Doubles without rounding: enough for numbers that need none. -/
def exactDoubles : Doubles where
  carrier := ℚ
  ofInt n := n
  arith
    | .add, l, r => l + r
    | .sub, l, r => l - r
    | .mul, l, r => l * r
    | .div, l, r => l / r
    | .other, l, _ => l

/-- `x = 1` in an entry block that is its own successor. -/
def loopedEntry : CFG Expr where
  blocks := [⟨[.assignment (.var (some 0)) (.number (some 1))], [0], [0]⟩]
  entryBlock := some 0
  entry_lt := by decide
  successors_lt := by decide
  predecessors_lt := by decide
  mem_predecessors := by decide

/-- `mut d: double = 7; mut e: double = d / 2`, and a block after that. -/
def halves : CFG Expr where
  blocks := [⟨[.varDecl (some 0) (some (.number (some 7))),
    .varDecl (some 1) (some (.binary .div (.var (some 0)) (.number (some 2))))], [], [1]⟩,
    ⟨[], [0], []⟩]
  entryBlock := some 0
  entry_lt := by decide
  successors_lt := by decide
  predecessors_lt := by decide
  mem_predecessors := by decide

theorem exists_loopedEntry :
    ∃ fuel IN, solveConstants {0} loopedEntry fuel = some IN ∧
      ¬RightOnPaths exactDoubles (fun _ => false) {0} loopedEntry IN := by
  obtain ⟨fuel, s, hrun, -, hstable⟩ := exists_solveConstants {0} loopedEntry
  refine ⟨fuel, s.IN, hrun fuel le_rfl, fun h => ?_⟩
  obtain ⟨hIN, hOUT⟩ := hstable 0 (by decide)
  have hentry : (s.IN 0)[0]? = some (some 1) := by
    have hjoin : newIN loopedEntry s 0 = s.OUT 0 := rfl
    have hset : transfer {0} loopedEntry (s.IN 0) 0 = set {0} (s.IN 0) (some 0) (some 1) := rfl
    rw [hIN, hjoin, hOUT, hset, getElem?_set, if_pos (by simp)]
  -- nothing is known of the variable where the path starts
  have hvalue := h [] 0 .entry (fun _ => .int 0) (fun _ => .int 0) (.nil _) 0 1 hentry
  exact absurd hvalue (by simp [constValue])

theorem exists_halves :
    ∃ fuel IN, solveConstants {0, 1} halves fuel = some IN ∧
      ¬RightOnPaths exactDoubles (fun _ => true) {0, 1} halves IN := by
  obtain ⟨fuel, s, hrun, hs, hstable⟩ := exists_solveConstants {0, 1} halves
  refine ⟨fuel, s.IN, hrun fuel le_rfl, fun h => ?_⟩
  have hjoin : newIN halves s 1 = s.OUT 0 := rfl
  have hentry : (s.IN 1)[1]? = some (some 3) := by
    have hset : transfer {0, 1} halves ∅ 0 = set {0, 1} (set {0, 1} ∅ (some 0) (some 7)) (some 1)
        (evalConstExpr (set {0, 1} ∅ (some 0) (some 7))
          (.binary .div (.var (some 0)) (.number (some 2)))) := rfl
    have hseven : evalConstExpr (set {0, 1} ∅ (some 0) (some 7)) (.var (some 0)) = some 7 := by
      rw [evalConstExpr_var, getElem?_set, if_pos (by simp)]
    have hthree : fold .div 7 2 = some 3 := by decide
    rw [(hstable 1 (by decide)).IN, hjoin, (hstable 0 (by decide)).OUT, hs.first 0 rfl, hset,
      getElem?_set, if_pos (by simp), evalConstExpr_binary.mpr ⟨7, 2, hseven, rfl, hthree⟩]
  let ρ₀ : Var → Value exactDoubles := fun _ => .int 0
  let ρ₁ : Var → Value exactDoubles := Function.update ρ₀ 0 (.double (7 : ℚ))
  let ρ₂ : Var → Value exactDoubles := Function.update ρ₁ 1 (.double (7 / 2 : ℚ))
  have hd : Step (fun _ => true) {0, 1} ρ₀ (.varDecl (some 0) (some (.number (some 7)))) ρ₁ := by
    refine ⟨fun x _ hx => Function.update_of_ne (fun h => hx (congrArg some h.symm)) _ _, ?_⟩
    rintro x - ⟨⟩ e ⟨⟩
    exact ⟨.int 7, .integer 7, rfl⟩
  have he : Step (fun _ => true) {0, 1} ρ₁
      (.varDecl (some 1) (some (.binary .div (.var (some 0)) (.number (some 2))))) ρ₂ := by
    refine ⟨fun x _ hx => Function.update_of_ne (fun h => hx (congrArg some h.symm)) _ _, ?_⟩
    rintro x - ⟨⟩ e ⟨⟩
    exact ⟨.double (7 / 2 : ℚ), .arith (by simp) (.tracked 0 (by decide)) (.integer 2) rfl, rfl⟩
  have hvalue := h [0] 1 (Dataflow.Walk.step .entry (by decide)) ρ₀ ρ₂ (((Replay.nil _).snoc hd).snoc he) 1 3 hentry
  have heq : (7 / 2 : ℚ) = (3 : ℤ) := Value.double.inj hvalue
  norm_num at heq

/-- The constants are wrong where a path starts at a block with predecessors, and where a division
of doubles was folded as one of integers. -/
theorem solveConstants_wrong :
    (∃ fuel IN, solveConstants {0} loopedEntry fuel = some IN ∧
      ¬RightOnPaths exactDoubles (fun _ => false) {0} loopedEntry IN) ∧
    ∃ fuel IN, solveConstants {0, 1} halves fuel = some IN ∧
      ¬RightOnPaths exactDoubles (fun _ => true) {0, 1} halves IN :=
  ⟨exists_loopedEntry, exists_halves⟩

end TurfLang.ValueRange
