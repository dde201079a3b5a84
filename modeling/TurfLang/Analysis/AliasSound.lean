import TurfLang.Analysis.Alias

/-!
# What an error of the alias pass says about the runs

A run follows the edges of the CFG and executes its statements. The pass raises an error when
its facts say that the site the variable points to was released on every path. That is so of
every run on which the variables that carry an allocation are assigned only in the two forms
that `transfer` knows; any other assignment leaves the old fact in place.
-/

namespace TurfLang.Alias

open Dataflow

/-! ### What statements do -/

/-- What a statement does to the variables and allocations. -/
inductive Effect
  | acquire (x : Var) (site : Site) (released : Option Var)
  | copy (x y : Var)
  | reassign (x : Var)
  | release (x : Var)
  | nothing
deriving DecidableEq

namespace Expr

mutual

/-- An expression that assigns no variable and releases nothing. -/
def quiet : Expr → Bool
  | null => true
  | leaf => true
  | var _ => true
  | call id callee args => !(call id callee args).releases && quietAll args
  | access _ base index => base.quiet && index.quiet
  | node children => quietAll children
  | assignment _ _ => false
  | varDecl _ _ => false

def quietAll : List Expr → Bool
  | [] => true
  | e :: es => e.quiet && quietAll es

end

/-- The effect of `x = rhs`. -/
def assignEffect (x : Var) (rhs : Expr) : Option Effect :=
  match rhs with
  | var y => some (.copy x y)
  | call id callee args =>
    if !quietAll args then none
    else if (call id callee args).isAcquire then
      some (.acquire x id (call id callee args).releasedVariable)
    else if (call id callee args).releases then none
    else some (.reassign x)
  | e => if e.quiet then some (.reassign x) else none

/-- The effect of a statement over pointer variables: an acquiring or a releasing call, a copy, any
other assignment of a variable, or accesses. Other statements have none. -/
def effect : Expr → Option Effect
  | assignment (var x) rhs => assignEffect x rhs
  | varDecl x init => assignEffect x init
  | assignment (access _ base index) rhs =>
    if base.quiet && index.quiet && rhs.quiet then some .nothing else none
  | call id callee args =>
    if !quietAll args then none
    else match (call id callee args).releasedVariable with
      | some x => some (.release x)
      | none => if (call id callee args).releases then none else some .nothing
  | e => if e.quiet then some .nothing else none

end Expr

/-! ### Runs -/

/-- The allocation each variable points to, the number of allocations made so far, which is the
next one, and the allocations released. -/
structure Memory where
  env : Var → Option ℕ
  next : ℕ
  released : Finset ℕ

/-- The release of what a variable points to. -/
def Memory.release (c : Memory) (x : Var) : Memory :=
  match c.env x with
  | some a => { c with released := insert a c.released }
  | none => c

/-- The execution of a statement. An allocation is never made twice, and an assignment of another
kind may leave any value in the variable. -/
inductive Effect.Step : Effect → Memory → Memory → Prop
  | acquire {x : Var} {site : Site} {released : Option Var} {c : Memory} :
      Step (.acquire x site released) c
        { env := Function.update c.env x (some c.next)
          next := c.next + 1
          released := (released.elim c c.release).released }
  | copy {x y : Var} {c : Memory} :
      Step (.copy x y) c { c with env := Function.update c.env x (c.env y) }
  | reassign {x : Var} {c : Memory} (v : Option ℕ) :
      Step (.reassign x) c { c with env := Function.update c.env x v }
  | release {x : Var} {c : Memory} : Step (.release x) c (c.release x)
  | nothing {c : Memory} : Step .nothing c c

/-- The execution of statements one after the other. -/
inductive Exec : List Expr → Memory → Memory → Prop
  | nil {c : Memory} : Exec [] c c
  | cons {e : Expr} {es : List Expr} {eff : Effect} {c c' c'' : Memory} (he : e.effect = some eff)
      (h : eff.Step c c') (hs : Exec es c' c'') : Exec (e :: es) c c''

/-- The variables that carry an allocation the run acquired, after a statement. -/
def trackedAfter (tracked : Finset Var) (e : Expr) : Finset Var :=
  match e.effect with
  | some (.acquire x _ _) => insert x tracked
  | some (.copy x y) => if y ∈ tracked then insert x tracked else tracked.erase x
  | _ => tracked

/-- No variable that carries an allocation is assigned other than by an acquiring call or a copy. -/
def recognised : Finset Var → List Expr → Bool
  | _, [] => true
  | tracked, e :: es =>
    (match e.effect with
      | some (.reassign x) => decide (x ∉ tracked)
      | _ => true) && recognised (trackedAfter tracked e) es

/-- The statements of a walk to a statement, that one not included. -/
def Cfg.pathTo (cfg : Cfg) (bs : List ℕ) (stmt : ℕ × ℕ) : List Expr :=
  bs.flatMap cfg.statements ++ (cfg.statements stmt.1).take stmt.2

/-! ### What `transfer` does with a statement -/

/-- What a statement's effect does to a fact: an assignment of another kind, nothing. -/
def State.apply (s : State) : Effect → State
  | .acquire x site _ => s.acquire x site
  | .copy x y => s.alias x y
  | .release x =>
    match s.points[x]? with
    | some (some aid) =>
      { s with mayFreed := insert aid s.mayFreed, mustFreed := insert aid s.mustFreed }
    | _ => s
  | .reassign _ => s
  | .nothing => s

/-- The fact says that what the variable points to is released. -/
def State.Certain (s : State) (x : Var) : Prop :=
  ∃ aid, s.points[x]? = some (some aid) ∧ aid ∈ s.mustFreed

/-- The reports added are raised at the statement, and the errors among them are certain. -/
def Reports (stmt : ℕ × ℕ) (s : State) (w w' : Scan) : Prop :=
  ∀ r ∈ w'.reports, r ∈ w.reports ∨ (r.stmt = stmt ∧ (r.kind.isError = true → s.Certain r.var))

section Transfer

variable {report : Bool} {stmt : ℕ × ℕ} {s : State} {w w' w'' : Scan}

theorem Reports.refl : Reports stmt s w w := fun _ hr => .inl hr

theorem Reports.trans (h : Reports stmt s w w') (h' : Reports stmt s w' w'') :
    Reports stmt s w w'' := by
  intro r hr
  rcases h' r hr with hr | hr
  · exact h r hr
  · exact .inr hr

theorem Reports.append {r : Report} (hstmt : r.stmt = stmt)
    (hr : r.kind.isError = true → s.Certain r.var) (hw : w'.reports = w.reports ++ [r]) :
    Reports stmt s w w' := by
  intro r' hr'
  rw [hw] at hr'
  rcases List.mem_append.1 hr' with hr' | hr'
  · exact .inl hr'
  · obtain rfl := List.mem_singleton.1 hr'
    exact .inr ⟨hstmt, hr⟩

theorem use_state {x : Var} {loc : ℕ} : (use report stmt x loc w).state = w.state := by
  rw [use]
  split
  · rfl
  · split
    · split_ifs <;> rfl
    · rfl

theorem use_reports {x : Var} {loc : ℕ} :
    Reports stmt w.state w (use report stmt x loc w) := by
  rw [use]
  split
  · exact .refl
  · split
    · rename_i aid haid
      split_ifs with hmust hmay
      · exact .append rfl (fun _ => ⟨aid, haid, hmust⟩) rfl
      · exact .append rfl (fun h => absurd h (by simp [Kind.isError])) rfl
      · exact .refl
    · exact .refl

theorem release_state {x : Var} {loc : ℕ} :
    (release report stmt x loc w).state = w.state.apply (.release x) := by
  have happly : w.state.apply (.release x) =
      match w.state.points[x]? with
      | some (some aid) =>
        { w.state with
          mayFreed := insert aid w.state.mayFreed
          mustFreed := insert aid w.state.mustFreed }
      | _ => w.state := rfl
  rw [happly, release]
  rcases w.state.points[x]? with _ | _ | aid
  · rfl
  · rfl
  · simp only
    split_ifs <;> rfl

theorem release_reports {x : Var} {loc : ℕ} :
    Reports stmt w.state w (release report stmt x loc w) := by
  rw [release]
  split
  · rename_i aid haid
    split_ifs with hreport hmust hmay
    · exact .append rfl (fun _ => ⟨aid, haid, hmust⟩) rfl
    · exact .append rfl (fun h => absurd h (by simp [Kind.isError])) rfl
    · exact .refl
    · exact .refl
  · exact .refl

theorem releasedArgument_of_releases {e : Expr} (h : e.releases = false) :
    e.releasedArgument = none := by
  cases e with
  | call id callee args =>
    cases callee with
    | none => rfl
    | some callee =>
      rw [Expr.releasedArgument, List.findSome?_eq_none_iff]
      intro a ha
      have hnone : a.keyed.lookup "releases" = none := by
        simp only [Expr.releases, Expr.calledFunction, Option.any_some, List.any_eq_false] at h
        exact Option.not_isSome_iff_eq_none.1 (h a ha)
      simp [hnone]
  | _ => rfl

theorem releasedVariable_of_releases {e : Expr} (h : e.releases = false) :
    e.releasedVariable = none := by
  rw [Expr.releasedVariable, releasedArgument_of_releases h]

/-- A scan that looks at accesses only. -/
def Looks (stmt : ℕ × ℕ) (w w' : Scan) : Prop := w'.state = w.state ∧ Reports stmt w.state w w'

theorem Looks.refl : Looks stmt w w := ⟨rfl, .refl⟩

theorem Looks.trans (h : Looks stmt w w') (h' : Looks stmt w' w'') : Looks stmt w w'' :=
  ⟨h'.1.trans h.1, h.2.trans (h.1 ▸ h'.2)⟩

theorem use_looks {x : Var} {loc : ℕ} : Looks stmt w (use report stmt x loc w) :=
  ⟨use_state, use_reports⟩

theorem visit_looks {e : Expr} (h : e.releases = false) :
    Looks stmt w (visit report stmt e w) := by
  simp only [visit, releasedVariable_of_releases h]
  split
  · exact use_looks
  · exact .refl

mutual

theorem recurse_looks {e : Expr} (h : e.quiet = true) (w : Scan) :
    Looks stmt w (recurse report stmt e w) := by
  cases e with
  | null => exact .refl
  | leaf => exact visit_looks rfl
  | var x => exact visit_looks rfl
  | call id callee args =>
    rw [Expr.quiet, Bool.and_eq_true, Bool.not_eq_true'] at h
    exact visit_looks h.1
  | access id base index => exact visit_looks rfl
  | node children =>
    rw [Expr.quiet] at h
    exact (visit_looks rfl).trans (recurseAll_looks h _)
  | assignment lhs rhs => simp [Expr.quiet] at h
  | varDecl x init => simp [Expr.quiet] at h

theorem recurseAll_looks {es : List Expr} (h : Expr.quietAll es = true) (w : Scan) :
    Looks stmt w (recurseAll report stmt es w) := by
  cases es with
  | nil => exact .refl
  | cons e es =>
    rw [Expr.quietAll, Bool.and_eq_true] at h
    exact (recurse_looks h.1 w).trans (recurseAll_looks h.2 _)

end

/-- What a turn of `transfer` does: the effect's to the fact, and only certain errors. -/
def Transfers (stmt : ℕ × ℕ) (eff : Effect) (w w' : Scan) : Prop :=
  w'.state = w.state.apply eff ∧ Reports stmt w.state w w'

theorem Looks.transfers {eff : Effect} (heff : w.state.apply eff = w.state) (h : Looks stmt w w') :
    Transfers stmt eff w w' :=
  ⟨h.1.trans heff.symm, h.2⟩

theorem transferOther_quiet {e : Expr} (h : e.quiet = true) :
    Looks stmt w (transferOther report stmt e w) := by
  have hrel : e.releases = false := by
    cases e with
    | call id callee args =>
      rw [Expr.quiet, Bool.and_eq_true, Bool.not_eq_true'] at h
      exact h.1
    | _ => rfl
  simp only [transferOther, hrel, Bool.false_eq_true, if_false]
  split
  · exact use_looks.trans (recurse_looks h _)
  · exact recurse_looks h _

/-- An assignment, in a statement or a declaration, of which `rest` is the part of `transfer` for
other statements. -/
theorem assign_transfers {x : Var} {rhs : Expr} {eff : Effect} {rest : Scan}
    (he : Expr.assignEffect x rhs = some eff) (hrest : rhs.quiet = true → Looks stmt w rest) :
    Transfers stmt eff w ((assign x rhs w).getD rest) := by
  cases rhs with
  | var y =>
    obtain rfl := Option.some.inj he
    exact ⟨rfl, .refl⟩
  | call id callee args =>
    rw [Expr.assignEffect] at he
    split_ifs at he with hargs hacq hrel
    · obtain rfl := Option.some.inj he
      unfold assign
      rw [if_pos hacq]
      exact ⟨rfl, .refl⟩
    · obtain rfl := Option.some.inj he
      unfold assign
      rw [if_neg hacq]
      refine (hrest ?_).transfers rfl
      rw [Expr.quiet, Bool.and_eq_true]
      exact ⟨by simpa using hrel, by simpa using hargs⟩
  | _ =>
    simp only [Expr.assignEffect] at he
    split_ifs at he with hq
    · obtain rfl := Option.some.inj he
      exact (hrest hq).transfers rfl

theorem transferStmt_transfers {e : Expr} {eff : Effect} (he : e.effect = some eff) :
    Transfers stmt eff w (transferStmt report stmt e w) := by
  cases e with
  | assignment lhs rhs =>
    cases lhs with
    | var x =>
      refine assign_transfers he fun hq => ?_
      exact (visit_looks rfl).trans ((visit_looks rfl).trans (recurse_looks hq _))
    | access id base index =>
      rw [Expr.effect] at he
      split_ifs at he with hq
      obtain rfl := Option.some.inj he
      rw [Bool.and_eq_true, Bool.and_eq_true] at hq
      exact ((visit_looks rfl).trans ((visit_looks rfl).trans (recurse_looks hq.2 _))).transfers rfl
    | _ => simp [Expr.effect, Expr.quiet] at he
  | varDecl x init =>
    exact assign_transfers he fun hq => (visit_looks rfl).trans (recurse_looks hq _)
  | call id callee args =>
    simp only [Expr.effect] at he
    simp only [transferStmt, transferOther]
    by_cases hrel : (Expr.call id callee args).releases = true
    · rw [if_pos hrel]
      rcases hx : (Expr.call id callee args).releasedVariable with _ | x
      · rw [hx, if_pos hrel] at he
        split_ifs at he
      · rw [hx] at he
        split_ifs at he
        obtain rfl := Option.some.inj he
        exact ⟨release_state, release_reports⟩
    · have hrel' : (Expr.call id callee args).releases = false := by simpa using hrel
      rw [if_neg hrel]
      rw [releasedVariable_of_releases hrel', if_neg hrel] at he
      split_ifs at he
      obtain rfl := Option.some.inj he
      exact (visit_looks hrel').transfers rfl
  | _ =>
    simp only [Expr.effect] at he
    split_ifs at he with hq
    obtain rfl := Option.some.inj he
    exact (transferOther_quiet hq).transfers rfl

end Transfer

/-! ### A block -/

/-- What statements do to a fact. -/
def State.applyAll (s : State) (es : List Expr) : State :=
  es.foldl (fun s e => s.apply (e.effect.getD .nothing)) s

section Block

variable {report : Bool} {es : List Expr}

/-- The statements of the claim's language. -/
def Known (es : List Expr) : Prop := ∀ e ∈ es, e.effect.isSome = true

theorem transferFrom_state (hes : Known es) (b i : ℕ) (w : Scan) :
    (Cfg.transferFrom report b i es w).state = w.state.applyAll es := by
  induction es generalizing i w with
  | nil => rfl
  | cons e es ih =>
    obtain ⟨eff, he⟩ := Option.isSome_iff_exists.1 (hes e (by simp))
    rw [Cfg.transferFrom, ih fun e h => hes e (by simp [h]), (transferStmt_transfers he).1,
      State.applyAll, State.applyAll, List.foldl_cons, he, Option.getD_some]

/-- Each error a block reports is certain at its statement. -/
theorem mem_transferFrom_reports (hes : Known es) {b i : ℕ} {w : Scan} {r : Report}
    (hr : r ∈ (Cfg.transferFrom report b i es w).reports) :
    r ∈ w.reports ∨ ∃ j < es.length, r.stmt = (b, i + j) ∧
      (r.kind.isError = true → (w.state.applyAll (es.take j)).Certain r.var) := by
  induction es generalizing i w with
  | nil => exact .inl hr
  | cons e es ih =>
    obtain ⟨eff, he⟩ := Option.isSome_iff_exists.1 (hes e (by simp))
    have htrans : Transfers (b, i) eff w (transferStmt report (b, i) e w) :=
      transferStmt_transfers he
    rcases ih (fun e h => hes e (by simp [h])) hr with hr | ⟨j, hj, hstmt, herr⟩
    · rcases htrans.2 r hr with hr | ⟨hstmt, herr⟩
      · exact .inl hr
      · exact .inr ⟨0, by simp, hstmt, herr⟩
    · refine .inr ⟨j + 1, by simpa using hj, by rw [hstmt]; congr 1; omega, fun h => ?_⟩
      have hcertain := herr h
      rw [htrans.1] at hcertain
      rwa [List.take_succ_cons, State.applyAll, List.foldl_cons, he, Option.getD_some]

end Block

/-! ### The solution of the worklist -/

/-- The block is processed and its facts are those of its predecessors. -/
structure Cfg.Stable (cfg : Cfg) (b : ℕ) (s : Solution) : Prop where
  visited : s.visited b = true
  inn : s.inn b = cfg.join s b
  out : s.out b = (s.inn b).applyAll (cfg.statements b)

section Solution

variable {cfg : Cfg}

theorem join_congr {s t : Solution} {c : ℕ}
    (h : ∀ p ∈ cfg.preds c, t.visited p = s.visited p ∧ t.out p = s.out p) :
    cfg.join t c = cfg.join s c := by
  have hmap : ((cfg.preds c).filter fun p => t.visited p).map t.out =
      ((cfg.preds c).filter fun p => s.visited p).map s.out := by
    rw [List.filter_congr fun p hp => (h p hp).1]
    exact List.map_congr_left fun p hp => (h p (List.mem_of_mem_filter hp)).2
  rw [Cfg.join, Cfg.join, hmap]

theorem settles (hlang : ∀ b, Known (cfg.statements b)) :
    Settles cfg.succs cfg.process cfg.Stable := by
  refine ⟨fun b s c hc hsucc => ?_⟩
  have hout : (cfg.transfer false b { state := cfg.join s b }).state =
      (cfg.join s b).applyAll (cfg.statements b) := transferFrom_state (hlang b) b 0 _
  simp only [Cfg.process, hout] at hsucc ⊢
  split_ifs at hsucc ⊢ with hchanged
  · have hbc : c ∉ cfg.succs b := hsucc rfl
    -- only the facts of `b` changed, and `b` is no predecessor of `c`
    have hjoin : ∀ inn, cfg.join ⟨inn, Function.update s.out b
        ((cfg.join s b).applyAll (cfg.statements b)), Function.update s.visited b true⟩ c =
        cfg.join s c := fun inn => join_congr fun p hp => by
      have hne : p ≠ b := by
        rintro rfl
        exact hbc ((cfg.mem_preds _ _).1 hp)
      exact ⟨Function.update_of_ne hne .., Function.update_of_ne hne ..⟩
    rcases eq_or_ne c b with rfl | hne
    · exact ⟨Function.update_self .., by rw [hjoin]; exact Function.update_self ..,
        by simp only [Function.update_self]⟩
    · have hstable := hc.resolve_left hne
      refine ⟨?_, ?_, ?_⟩ <;> dsimp only
      · rw [Function.update_of_ne hne, hstable.visited]
      · rw [hjoin, Function.update_of_ne hne, hstable.inn]
      · rw [Function.update_of_ne hne, Function.update_of_ne hne, hstable.out]
  · rw [not_or, not_not, Bool.not_eq_true', Bool.not_eq_false] at hchanged
    rcases eq_or_ne c b with rfl | hne
    · exact ⟨hchanged.1, Function.update_self .., by
        simp only [Function.update_self]
        exact hchanged.2.symm⟩
    · have hstable := hc.resolve_left hne
      refine ⟨hstable.visited, ?_, ?_⟩ <;> dsimp only
      · rw [Function.update_of_ne hne]
        exact hstable.inn
      · rw [Function.update_of_ne hne]
        exact hstable.out

/-- What the pass has found when its worklist is empty. -/
theorem exists_solution (hlang : ∀ b, Known (cfg.statements b)) {fuel : ℕ} {rs : List Report}
    (h : cfg.runOnCFG fuel = some rs) :
    ∃ s, (∀ b < cfg.size, cfg.Stable b s) ∧ rs = cfg.reports s := by
  rw [Cfg.runOnCFG, Option.bind_eq_bind, Option.bind_eq_some_iff] at h
  obtain ⟨s, hs, h⟩ := h
  exact ⟨s, (settles hlang).solve_stable hs fun c hc hmem => absurd (List.mem_range.2 hc) hmem,
    (Option.some.inj h).symm⟩

/-- Each error is certain in the fact its statement starts from. -/
theorem certain_of_mem_reports (hlang : ∀ b, Known (cfg.statements b)) {s : Solution} {r : Report}
    (hr : r ∈ cfg.reports s) (herr : r.kind.isError = true) :
    r.stmt.1 < cfg.size ∧ r.stmt.2 < (cfg.statements r.stmt.1).length ∧
      ((s.inn r.stmt.1).applyAll ((cfg.statements r.stmt.1).take r.stmt.2)).Certain r.var := by
  suffices ∀ (bs : List ℕ) (w : Scan), (∀ b ∈ bs, b < cfg.size) →
      r ∈ (bs.foldl (fun w b =>
        if s.visited b then cfg.transfer true b { w with state := s.inn b } else w) w).reports →
      r ∈ w.reports ∨ (r.stmt.1 < cfg.size ∧ r.stmt.2 < (cfg.statements r.stmt.1).length ∧
        ((s.inn r.stmt.1).applyAll ((cfg.statements r.stmt.1).take r.stmt.2)).Certain r.var) by
    rcases this _ {} (fun b => List.mem_range.1) hr with h | h
    · cases h
    · exact h
  intro bs w hbs hr
  induction bs generalizing w with
  | nil => exact .inl hr
  | cons b bs ih =>
    rcases ih _ (fun b h => hbs b (by simp [h])) hr with hr | hr
    · dsimp only at hr
      split_ifs at hr with hv
      · rcases mem_transferFrom_reports (hlang b) hr with hr | ⟨j, hj, hstmt, hcertain⟩
        · exact .inl hr
        · rw [Nat.zero_add] at hstmt
          refine .inr ?_
          rw [hstmt]
          exact ⟨hbs b (by simp), hj, hcertain herr⟩
      · exact .inl hr
    · exact .inr hr

/-! ### Joins -/

/-- The certain part of one fact is in the other. -/
structure State.Le (s t : State) : Prop where
  points : ∀ (x : Var) (aid : Site), s.points[x]? = some (some aid) → t.points[x]? = some (some aid)
  mustFreed : s.mustFreed ⊆ t.mustFreed

theorem State.Le.refl (s : State) : s.Le s := ⟨fun _ _ h => h, Finset.Subset.refl _⟩

theorem State.Le.trans {s t u : State} (h : s.Le t) (h' : t.Le u) : s.Le u :=
  ⟨fun x aid hx => h'.points x aid (h.points x aid hx), h.mustFreed.trans h'.mustFreed⟩

theorem meet_le_left (s t : State) : (s.meet t).Le s where
  points x aid h := by
    rw [State.meet, Std.ExtTreeMap.getElem?_map, Option.map_eq_some_iff] at h
    obtain ⟨p, hp, h⟩ := h
    split_ifs at h
    exact h ▸ hp
  mustFreed := Finset.filter_subset _ _

theorem meet_le_right (s t : State) : (s.meet t).Le t where
  points x aid h := by
    rw [State.meet, Std.ExtTreeMap.getElem?_map, Option.map_eq_some_iff] at h
    obtain ⟨p, hp, h⟩ := h
    split_ifs at h with heq
    exact h ▸ heq
  mustFreed := fun aid h => (Finset.mem_filter.1 h).2

theorem foldl_meet_le (first : State) (rest : List State) :
    (rest.foldl State.meet first).Le first ∧ ∀ t ∈ rest, (rest.foldl State.meet first).Le t := by
  induction rest generalizing first with
  | nil => exact ⟨.refl _, fun t ht => by cases ht⟩
  | cons t rest ih =>
    obtain ⟨hfirst, hrest⟩ := ih (first.meet t)
    refine ⟨hfirst.trans (meet_le_left _ _), fun u hu => ?_⟩
    rcases List.mem_cons.1 hu with rfl | hu
    · exact hfirst.trans (meet_le_right _ _)
    · exact hrest u hu

/-- A join says no more than each of the predecessors. -/
theorem join_le {s : Solution} {b p : ℕ} (hp : p ∈ cfg.preds b) (hv : s.visited p = true) :
    (cfg.join s b).Le (s.out p) := by
  have hmem : s.out p ∈ ((cfg.preds b).filter fun p => s.visited p).map s.out :=
    List.mem_map_of_mem (List.mem_filter.2 ⟨hp, hv⟩)
  rw [Cfg.join]
  split
  · rename_i hnil
    rw [hnil] at hmem
    cases hmem
  · rename_i first rest hcons
    rw [hcons] at hmem
    obtain ⟨hfirst, hrest⟩ := foldl_meet_le first rest
    rcases List.mem_cons.1 hmem with heq | hmem
    · rwa [heq]
    · exact hrest _ hmem

end Solution

/-! ### Where a site is mentioned -/

/-- Some variable is said to point to the site. -/
def State.Mentions (s : State) (site : Site) : Prop := ∃ x : Var, s.points[x]? = some (some site)

theorem acquired_of_assignEffect {x y : Var} {rhs : Expr} {site : Site} {released : Option Var}
    (h : Expr.assignEffect x rhs = some (.acquire y site released)) :
    (if rhs.isAcquire then some rhs.loc else none) = some site := by
  cases rhs with
  | call id callee args =>
    simp only [Expr.assignEffect] at h
    split_ifs at h with hargs hacq hrel
    · rw [if_pos hacq]
      obtain ⟨-, rfl, -⟩ : x = y ∧ id = site ∧ _ := by simpa using h
      rfl
    · cases h
  | var z => cases h
  | _ =>
    simp only [Expr.assignEffect] at h
    split_ifs at h
    cases h

theorem acquired_of_effect {e : Expr} {x : Var} {site : Site} {released : Option Var}
    (h : e.effect = some (.acquire x site released)) : e.acquired = some site := by
  cases e with
  | assignment lhs rhs =>
    cases lhs with
    | var y => exact acquired_of_assignEffect h
    | _ =>
      simp only [Expr.effect] at h
      split_ifs at h
      cases h
  | varDecl y init => exact acquired_of_assignEffect h
  | call id callee args =>
    simp only [Expr.effect] at h
    split_ifs at h <;> split at h <;> cases h
  | _ =>
    simp only [Expr.effect] at h
    split_ifs at h
    cases h

/-- Only an acquiring call brings a site into a fact. -/
theorem mentions_apply {s : State} {eff : Effect} {site : Site} (h : (s.apply eff).Mentions site) :
    s.Mentions site ∨ ∃ x released, eff = .acquire x site released := by
  obtain ⟨q, hq⟩ := h
  cases eff with
  | acquire x site' released =>
    simp only [State.apply, State.acquire, Std.ExtTreeMap.getElem?_insert] at hq
    split_ifs at hq with heq
    · obtain rfl : site' = site := by simpa using hq
      exact .inr ⟨x, released, rfl⟩
    · exact .inl ⟨q, hq⟩
  | copy x y =>
    simp only [State.apply, State.alias] at hq
    split at hq
    · rename_i p hp
      rw [Std.ExtTreeMap.getElem?_insert] at hq
      split_ifs at hq
      · obtain rfl : p = some site := by simpa using hq
        exact .inl ⟨y, hp⟩
      · exact .inl ⟨q, hq⟩
    · rw [Std.ExtTreeMap.getElem?_erase] at hq
      split_ifs at hq
      exact .inl ⟨q, hq⟩
  | release x =>
    simp only [State.apply] at hq
    split at hq <;> exact .inl ⟨q, hq⟩
  | reassign x => exact .inl ⟨q, hq⟩
  | nothing => exact .inl ⟨q, hq⟩

theorem mentions_applyAll {s : State} {es : List Expr} {site : Site}
    (h : (s.applyAll es).Mentions site) : s.Mentions site ∨ ∃ e ∈ es, e.acquired = some site := by
  induction es generalizing s with
  | nil => exact .inl h
  | cons e es ih =>
    rcases ih h with h | ⟨f, hf, hacq⟩
    · dsimp only at h
      rcases he : e.effect with _ | eff
      · rw [he] at h
        exact .inl h
      · rw [he] at h
        rcases mentions_apply h with h | ⟨x, released, rfl⟩
        · exact .inl h
        · exact .inr ⟨e, by simp, acquired_of_effect he⟩
    · exact .inr ⟨f, by simp [hf], hacq⟩

section Walks

variable {cfg : Cfg} {s : Solution}

theorem lt_of_walk {bs : List ℕ} {b : ℕ} (h : Walk cfg.succs 0 bs b) (h0 : 0 < cfg.size) :
    b < cfg.size := by
  cases h with
  | entry => exact h0
  | step _ hc => exact cfg.succs_lt _ _ hc

/-- A site a block starts with was acquired in a block before it. -/
theorem exists_acquired_of_walk (hs : ∀ b < cfg.size, cfg.Stable b s) (h0 : 0 < cfg.size)
    {bs : List ℕ} {b : ℕ} (h : Walk cfg.succs 0 bs b) {site : Site}
    (hm : (s.inn b).Mentions site) :
    ∃ c ∈ bs, ∃ e ∈ cfg.statements c, e.acquired = some site := by
  induction h with
  | entry =>
    obtain ⟨x, hx⟩ := hm
    rw [(hs 0 h0).inn, Cfg.join, cfg.entry_preds] at hx
    simp at hx
  | @step bs b c h hc ih =>
    have hb := hs b (lt_of_walk h h0)
    obtain ⟨x, hx⟩ := hm
    rw [(hs c (cfg.succs_lt _ _ hc)).inn] at hx
    have hout : (s.out b).Mentions site :=
      ⟨x, (join_le ((cfg.mem_preds _ _).2 hc) hb.visited).points x site hx⟩
    rw [hb.out] at hout
    rcases mentions_applyAll hout with hout | ⟨e, he, hacq⟩
    · obtain ⟨d, hd, h⟩ := ih hout
      exact ⟨d, by simp [hd], h⟩
    · exact ⟨b, by simp, e, he, hacq⟩

/-- Where an acquiring call stands, the fact mentions its site nowhere: the first time a run gets
there, the call has not run yet. -/
theorem not_mentions_before (hs : ∀ b < cfg.size, cfg.Stable b s) (h0 : 0 < cfg.size)
    {bs : List ℕ} {b i : ℕ} (h : Walk cfg.succs 0 bs b) {e : Expr} {site : Site}
    (he : (cfg.statements b)[i]? = some e) (hacq : e.acquired = some site) :
    ¬ ((s.inn b).applyAll ((cfg.statements b).take i)).Mentions site := by
  intro hm
  obtain ⟨bs', hw, hfirst⟩ := h.exists_first
  rcases mentions_applyAll hm with hm | ⟨f, hf, hacq'⟩
  · obtain ⟨c, hc, f, hf, hacq'⟩ := exists_acquired_of_walk hs h0 hw hm
    obtain ⟨j, hj⟩ := List.getElem?_of_mem hf
    obtain ⟨rfl, -⟩ := cfg.once _ _ _ _ _ _ _ he hj hacq hacq'
    exact hfirst hc
  · obtain ⟨j, hj⟩ := List.getElem?_of_mem hf
    rw [List.getElem?_take] at hj
    split_ifs at hj with hji
    obtain ⟨-, rfl⟩ := cfg.once _ _ _ _ _ _ _ he hj hacq hacq'
    omega

end Walks

/-! ### Facts and runs -/

/-- A run is as the fact says, where `latest` is the last allocation of each site. -/
structure Agrees (s : State) (tracked : Finset Var) (c : Memory) (latest : Site → Option ℕ) :
    Prop where
  tracked : ∀ (x : Var) (site : Site), s.points[x]? = some (some site) → x ∈ tracked
  points : ∀ (x : Var) (site : Site), s.points[x]? = some (some site) →
    ∃ a, latest site = some a ∧ c.env x = some a
  freed : ∀ site ∈ s.mustFreed, ∀ a, latest site = some a → a ∈ c.released

theorem agrees_init (c : Memory) : Agrees {} ∅ c fun _ => none where
  tracked x site h := by simp at h
  points x site h := by simp at h
  freed site h := by simp at h

theorem released_subset_release (c : Memory) (x : Var) : c.released ⊆ (c.release x).released := by
  rw [Memory.release]
  split
  · exact Finset.subset_insert _ _
  · exact Finset.Subset.refl _

theorem env_release (c : Memory) (x : Var) : (c.release x).env = c.env := by
  rw [Memory.release]
  split <;> rfl

namespace Agrees

variable {s t : State} {tracked : Finset Var} {c c' : Memory} {latest : Site → Option ℕ}

/-- A run agrees with what says less. -/
theorem mono (h : Agrees t tracked c latest) (hle : s.Le t) : Agrees s tracked c latest where
  tracked x site hx := h.tracked x site (hle.points x site hx)
  points x site hx := h.points x site (hle.points x site hx)
  freed site hsite := h.freed site (hle.mustFreed hsite)

theorem apply_acquire (h : Agrees s tracked c latest) {x : Var} {site : Site}
    {released : Option Var} (hfirst : ¬ s.Mentions site) :
    Agrees (s.acquire x site) (insert x tracked)
      { env := Function.update c.env x (some c.next)
        next := c.next + 1
        released := (released.elim c c.release).released }
      (Function.update latest site (some c.next)) where
  tracked y site' hy := by
    rw [State.acquire, Std.ExtTreeMap.getElem?_insert] at hy
    split_ifs at hy with heq
    · exact Finset.mem_insert.2 (.inl (Std.LawfulEqCmp.eq_of_compare heq).symm)
    · exact Finset.mem_insert_of_mem (h.tracked y site' hy)
  points y site' hy := by
    rw [State.acquire, Std.ExtTreeMap.getElem?_insert] at hy
    split_ifs at hy with heq
    · obtain rfl := Std.LawfulEqCmp.eq_of_compare heq
      obtain rfl : site = site' := by simpa using hy
      exact ⟨c.next, Function.update_self .., Function.update_self ..⟩
    · have hyx : y ≠ x := fun h => heq (by simp [h])
      have hsite : site' ≠ site := by
        rintro rfl
        exact hfirst ⟨y, hy⟩
      obtain ⟨a, ha, hya⟩ := h.points y site' hy
      exact ⟨a, (Function.update_of_ne hsite ..).trans ha, (Function.update_of_ne hyx ..).trans hya⟩
  freed site' hsite a ha := by
    obtain ⟨hne, hsite⟩ := Finset.mem_erase.1 hsite
    rw [Function.update_of_ne hne] at ha
    have hmem := h.freed site' hsite a ha
    cases released with
    | none => exact hmem
    | some y => exact released_subset_release c y hmem

theorem apply_copy (h : Agrees s tracked c latest) (x y : Var) :
    Agrees (s.alias x y) (if y ∈ tracked then insert x tracked else tracked.erase x)
      { c with env := Function.update c.env x (c.env y) } latest := by
  have hlookup : ∀ (z : Var) (site : Site), (s.alias x y).points[z]? = some (some site) →
      (z = x ∧ s.points[y]? = some (some site)) ∨ (z ≠ x ∧ s.points[z]? = some (some site)) := by
    intro z site hz
    simp only [State.alias] at hz
    split at hz
    · rename_i p hp
      rw [Std.ExtTreeMap.getElem?_insert] at hz
      split_ifs at hz with heq
      · obtain rfl : p = some site := by simpa using hz
        exact .inl ⟨(Std.LawfulEqCmp.eq_of_compare heq).symm, hp⟩
      · exact .inr ⟨fun h => heq (by simp [h]), hz⟩
    · rw [Std.ExtTreeMap.getElem?_erase] at hz
      split_ifs at hz with heq
      exact .inr ⟨fun h => heq (by simp [h]), hz⟩
  refine ⟨fun z site hz => ?_, fun z site hz => ?_, h.freed⟩
  · rcases hlookup z site hz with ⟨rfl, hy⟩ | ⟨hne, hz⟩
    · rw [if_pos (h.tracked y site hy)]
      exact Finset.mem_insert_self _ _
    · split_ifs
      · exact Finset.mem_insert_of_mem (h.tracked z site hz)
      · exact Finset.mem_erase.2 ⟨hne, h.tracked z site hz⟩
  · rcases hlookup z site hz with ⟨rfl, hy⟩ | ⟨hne, hz⟩
    · obtain ⟨a, ha, hya⟩ := h.points y site hy
      exact ⟨a, ha, by simp [hya]⟩
    · obtain ⟨a, ha, hza⟩ := h.points z site hz
      exact ⟨a, ha, by simp [Function.update_of_ne hne, hza]⟩

theorem apply_release (h : Agrees s tracked c latest) (x : Var) :
    Agrees (s.apply (.release x)) tracked (c.release x) latest := by
  rw [State.apply]
  split
  · rename_i aid haid
    refine ⟨h.tracked, fun z site hz => ?_, fun site hsite a ha => ?_⟩
    · rw [env_release]
      exact h.points z site hz
    · rcases Finset.mem_insert.1 hsite with rfl | hsite
      · obtain ⟨a', ha', hx⟩ := h.points x site haid
        obtain rfl : a' = a := by simpa [ha'] using ha
        simp [Memory.release, hx]
      · exact released_subset_release c x (h.freed site hsite a ha)
  · refine ⟨h.tracked, fun z site hz => ?_, fun site hsite a ha => ?_⟩
    · rw [env_release]
      exact h.points z site hz
    · exact released_subset_release c x (h.freed site hsite a ha)

/-- One statement. -/
theorem step (h : Agrees s tracked c latest) {e : Expr} {eff : Effect} (he : e.effect = some eff)
    (hstep : eff.Step c c') (hrec : ∀ x, eff = .reassign x → x ∉ tracked)
    (hfirst : ∀ site, e.acquired = some site → ¬ s.Mentions site) :
    ∃ latest', Agrees (s.apply eff) (trackedAfter tracked e) c' latest' := by
  rw [trackedAfter, he]
  cases hstep with
  | acquire => exact ⟨_, h.apply_acquire (hfirst _ (acquired_of_effect he))⟩
  | copy => exact ⟨latest, h.apply_copy _ _⟩
  | @reassign x c v =>
    -- the fact says nothing of a variable that carries no allocation
    refine ⟨latest, h.tracked, fun y site hy => ?_, h.freed⟩
    have hne : y ≠ x := by
      rintro rfl
      exact hrec y rfl (h.tracked y site hy)
    obtain ⟨a, ha, hya⟩ := h.points y site hy
    exact ⟨a, ha, by simp [Function.update_of_ne hne, hya]⟩
  | release => exact ⟨latest, h.apply_release _⟩
  | nothing => exact ⟨latest, h⟩

/-- Statements one after the other. -/
theorem run {es : List Expr} (h : Agrees s tracked c latest) (hexec : Exec es c c')
    (hrec : recognised tracked es = true)
    (hfirst : ∀ i e site, es[i]? = some e → e.acquired = some site →
      ¬ (s.applyAll (es.take i)).Mentions site) :
    ∃ latest', Agrees (s.applyAll es) (es.foldl trackedAfter tracked) c' latest' := by
  induction hexec generalizing s tracked latest with
  | nil => exact ⟨latest, h⟩
  | @cons e es eff c c' c'' he hstep _ ih =>
    rw [recognised, Bool.and_eq_true] at hrec
    obtain ⟨latest', h'⟩ := h.step he hstep
      (fun x hx => by
        have := hrec.1
        rw [he, hx] at this
        simpa using this)
      (fun site => hfirst 0 e site rfl)
    have heff : s.applyAll (e :: es) = (s.apply eff).applyAll es := by
      rw [State.applyAll, List.foldl_cons, he]
      rfl
    rw [heff, List.foldl_cons]
    refine ih h' hrec.2 fun i f site hf hacq => ?_
    have hnot := hfirst (i + 1) f site hf hacq
    rwa [List.take_succ_cons, State.applyAll, List.foldl_cons, he] at hnot

end Agrees

/-! ### Runs of the whole CFG -/

theorem recognised_append {tracked : Finset Var} {es fs : List Expr} :
    recognised tracked (es ++ fs) =
      (recognised tracked es && recognised (es.foldl trackedAfter tracked) fs) := by
  induction es generalizing tracked with
  | nil => simp [recognised]
  | cons e es ih => rw [List.cons_append, recognised, recognised, ih, List.foldl_cons, Bool.and_assoc]

theorem exists_of_exec_append {es fs : List Expr} {c c'' : Memory} (h : Exec (es ++ fs) c c'') :
    ∃ c', Exec es c c' ∧ Exec fs c' c'' := by
  induction es generalizing c with
  | nil => exact ⟨c, .nil, h⟩
  | cons e es ih =>
    cases h with
    | cons he hstep hs =>
      obtain ⟨c', hes, hfs⟩ := ih hs
      exact ⟨c', .cons he hstep hes, hfs⟩

section Walks

variable {cfg : Cfg} {s : Solution}

/-- A run that has followed a walk agrees with the fact the block starts with. -/
theorem agrees_of_walk (hs : ∀ b < cfg.size, cfg.Stable b s) (h0 : 0 < cfg.size) {bs : List ℕ}
    {b : ℕ} (h : Walk cfg.succs 0 bs b) {c₀ c : Memory} (hexec : Exec (bs.flatMap cfg.statements) c₀ c)
    (hrec : recognised ∅ (bs.flatMap cfg.statements) = true) :
    ∃ latest, Agrees (s.inn b) ((bs.flatMap cfg.statements).foldl trackedAfter ∅) c latest := by
  induction h generalizing c with
  | entry =>
    cases hexec
    rw [(hs 0 h0).inn, Cfg.join, cfg.entry_preds]
    exact ⟨_, agrees_init _⟩
  | @step bs b d hw hd ih =>
    have hb := hs b (lt_of_walk hw h0)
    rw [List.flatMap_append, List.flatMap_singleton] at hexec hrec ⊢
    obtain ⟨c', hexec₁, hexec₂⟩ := exists_of_exec_append hexec
    rw [recognised_append, Bool.and_eq_true] at hrec
    obtain ⟨latest, hagree⟩ := ih hexec₁ hrec.1
    obtain ⟨latest', hagree'⟩ := hagree.run hexec₂ hrec.2 fun i e site he hacq =>
      not_mentions_before hs h0 hw he hacq
    rw [← hb.out] at hagree'
    rw [List.foldl_append, (hs d (cfg.succs_lt _ _ hd)).inn]
    exact ⟨latest', hagree'.mono (join_le ((cfg.mem_preds _ _).2 hd) hb.visited)⟩

end Walks

/-- When the pass raises an error at a statement, then on every run to that statement on which the
variables that carry an allocation are assigned by acquiring calls and copies only, what the
variable points to has been released. -/
theorem error_certain {cfg : Cfg} (hlang : ∀ b, Known (cfg.statements b)) {fuel : ℕ}
    {rs : List Report} (h : cfg.runOnCFG fuel = some rs) {r : Report} (hr : r ∈ rs)
    (herr : r.kind.isError = true) {bs : List ℕ} (hwalk : Walk cfg.succs 0 bs r.stmt.1)
    (hrec : recognised ∅ (cfg.pathTo bs r.stmt) = true) {c₀ c : Memory}
    (hexec : Exec (cfg.pathTo bs r.stmt) c₀ c) : ∃ a, c.env r.var = some a ∧ a ∈ c.released := by
  obtain ⟨s, hs, rfl⟩ := exists_solution hlang h
  obtain ⟨hlt, -, aid, hpoints, hfreed⟩ := certain_of_mem_reports hlang hr herr
  have h0 : 0 < cfg.size := Nat.zero_lt_of_lt hlt
  obtain ⟨c', hexec₁, hexec₂⟩ := exists_of_exec_append hexec
  rw [Cfg.pathTo, recognised_append, Bool.and_eq_true] at hrec
  obtain ⟨latest, hagree⟩ := agrees_of_walk hs h0 hwalk hexec₁ hrec.1
  obtain ⟨latest', hagree'⟩ := hagree.run hexec₂ hrec.2 fun i e site he hacq => by
    rw [List.getElem?_take] at he
    split_ifs at he with hi
    rw [List.take_take, Nat.min_eq_left hi.le]
    exact not_mentions_before hs h0 hwalk he hacq
  obtain ⟨a, ha, hvar⟩ := hagree'.points r.var aid hpoints
  exact ⟨a, hvar, hagree'.freed aid hfreed a ha⟩

/-! ### The assignment the pass does not see -/

/-- A call of `malloc` that is node `id`. -/
def mallocCall (id : ℕ) : Expr := .call id (some ⟨["size"], [⟨["acquires"], []⟩]⟩) [.leaf]

/-- A call `free(x)` that is node `id`. -/
def freeCall (id : ℕ) (x : Var) : Expr :=
  .call id (some ⟨["p"], [⟨[], [("releases", "p")]⟩]⟩) [.var x]

/-- The CFG of `mut p = malloc(n); free(p);` and more statements that acquire nothing. -/
def straightLine (rest : List Expr) (hrest : ∀ e ∈ rest, e.acquired = none) : Cfg where
  size := 2
  statements b := if b = 0 then .varDecl 0 (mallocCall 1) :: freeCall 2 0 :: rest else []
  succs b := if b = 0 then [1] else []
  preds c := if c = 1 then [0] else []
  mem_preds b c := by split_ifs <;> simp_all
  succs_lt b c hc := by
    split_ifs at hc
    · simp_all
    · cases hc
  entry_preds := rfl
  once b c i j e f site he hf hacq hacq' := by
    have hfirst : ∀ (b i : ℕ) (e : Expr),
        (if b = 0 then .varDecl 0 (mallocCall 1) :: freeCall 2 0 :: rest else [])[i]? = some e →
        e.acquired = some site → b = 0 ∧ i = 0 := by
      intro b i e he hacq
      split_ifs at he with hb
      · refine ⟨hb, ?_⟩
        match i, he with
        | 0, _ => rfl
        | 1, he =>
          obtain rfl := Option.some.inj he
          cases hacq
        | i + 2, he =>
          rw [hrest e (List.mem_of_getElem? he)] at hacq
          cases hacq
      · simp at he
    obtain ⟨rfl, rfl⟩ := hfirst b i e he hacq
    obtain ⟨rfl, rfl⟩ := hfirst c j f hf hacq'
    exact ⟨rfl, rfl⟩

theorem known_straightLine {rest : List Expr} {hrest : ∀ e ∈ rest, e.acquired = none}
    (h : Known rest) (b : ℕ) : Known ((straightLine rest hrest).statements b) := by
  intro e he
  simp only [straightLine] at he
  split_ifs at he
  · rcases List.mem_cons.1 he with rfl | he
    · rfl
    · rcases List.mem_cons.1 he with rfl | he
      · rfl
      · exact h e he
  · cases he

/-- `mut p = malloc(n); free(p); free(p);` -/
def freedTwice : Cfg := straightLine [freeCall 3 0] (by simp [freeCall, Expr.acquired])

/-- `mut p = malloc(n); free(p); p = null; free(p);` -/
def freedAfterNull : Cfg :=
  straightLine [.assignment (.var 0) .leaf, freeCall 3 0]
    (by simp [freeCall, Expr.acquired, Expr.isAcquire, Expr.calledFunction])

/-- The first release of `p`, after which it still points to allocation 0. -/
theorem exec_first_release (c : Memory) : Exec [.varDecl 0 (mallocCall 1), freeCall 2 0] c
    (({ c with env := Function.update c.env 0 (some c.next), next := c.next + 1 } : Memory).release
      0) :=
  .cons rfl .acquire (.cons rfl .release .nil)

theorem error_certain_freedTwice : ∃ a : ℕ,
    (Function.update (fun _ => none) 0 (some 0) : Var → Option ℕ) 0 = some a ∧
      a ∈ ({0} : Finset ℕ) := by
  have hlang : ∀ b, Known (freedTwice.statements b) := known_straightLine fun e he => by
    obtain rfl := List.mem_singleton.1 he
    rfl
  have hrun : freedTwice.runOnCFG 10 =
      some [⟨(0, 2), .doubleFreeError, 3, 0, some (2, "first freed here")⟩] := by decide
  exact error_certain hlang hrun (List.mem_singleton.2 rfl) rfl .entry (by decide)
    (exec_first_release ⟨fun _ => none, 0, ∅⟩)

/-- The pass raises a double free for `p` where `p` is null on the only run. -/
theorem not_error_certain_freedAfterNull :
    (∀ b, Known (freedAfterNull.statements b)) ∧
      freedAfterNull.runOnCFG 10 =
        some [⟨(0, 3), .doubleFreeError, 3, 0, some (2, "first freed here")⟩] ∧
      Walk freedAfterNull.succs 0 [] 0 ∧
      ∃ c, Exec (freedAfterNull.pathTo [] (0, 3)) ⟨fun _ => none, 0, ∅⟩ c ∧
        ¬ ∃ a, c.env 0 = some a ∧ a ∈ c.released := by
  refine ⟨known_straightLine fun e he => ?_, by decide, .entry,
    { env := Function.update (Function.update (fun _ => none) 0 (some 0)) 0 none
      next := 1
      released := {0} }, .cons rfl .acquire (.cons rfl .release (.cons rfl (.reassign none) .nil)),
    by simp⟩
  rcases List.mem_cons.1 he with rfl | he
  · rfl
  · obtain rfl := List.mem_singleton.1 he
    rfl

end TurfLang.Alias
