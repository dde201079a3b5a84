import TurfLang.Codegen.Defer
import TurfLang.Frontend.RunLaws

/-!
# Emitted code runs what is deferred

Where every jump is in its place and every deferred statement comes to its own end, the emission of
a body comes to its end, and the code does what the body does: each exit of the code runs the
statements that the body runs there.
-/

namespace TurfLang.Ast

open Behaviour
open Filter (atTop)

/-! ### The exits of emitted code -/

/-- Deferred statements, one after another. -/
def flushed : List Expr → Behaviour Event
  | [] => skip
  | d :: ds => seq (d.run .bare) (flushed ds)

/-- What code does before it leaves the tree it was emitted for. -/
def Pending.exits (p : Pending) (ret loop : Bool) : Outcome → Behaviour Event
  | .returns | .fails => if ret then flushed (p.fromDepth 0) else skip
  | .breaks | .continues => if loop then flushed (p.fromDepth (p.loops.headD 0)) else skip
  | .normal | .halts => skip

section

variable {ed : Expr → Emitter → Option (Code × Emitter)} {ret loop : Bool} {p : Pending}
  {st : Emitter} {a b : Behaviour Event}

/-- The emission comes to its end with code for a program, and the pending statements are the ones
that were. -/
def Emits (p : Pending) (a : Behaviour Event) (r : Option (Code × Emitter)) : Prop :=
  ∃ c st, r = some (c, st) ∧ c.run = a ∧ st.defers = p

/-- A deferred statement is emitted wherever it has to be. -/
structure Emittable (ed : Expr → Emitter → Option (Code × Emitter)) (d : Expr) : Prop where
  emits : ∀ st, Emits st.defers (d.run .bare) (ed d st)
  ends : Within (fun o => o = .normal ∨ o = .halts) (d.run .bare)

/-- Every statement that may have to be flushed is emitted wherever it has to be. -/
structure Fits (ed : Expr → Emitter → Option (Code × Emitter)) (ret loop : Bool) (p : Pending) :
    Prop where
  ofReturn : ret = true → ∀ d ∈ p.fromDepth 0, Emittable ed d
  ofLoop : loop = true → ∃ depth loops, p.loops = depth :: loops ∧ depth ≤ p.frames.length ∧
    ∀ d ∈ p.fromDepth depth, Emittable ed d

theorem flushed_ends {ds : List Expr} (h : ∀ d ∈ ds, Emittable ed d) :
    Within (fun o => o = .normal ∨ o = .halts) (flushed ds) := by
  induction ds with
  | nil => exact within_skip (.inl rfl)
  | cons d ds ih =>
    exact within_seq (h d List.mem_cons_self).ends (ih fun d hd => h d (List.mem_cons_of_mem _ hd))

theorem flushAll_emits {ds : List Expr} (h : ∀ d ∈ ds, Emittable ed d) (st : Emitter) :
    Emits st.defers (flushed ds) (flushAll ed ds st) := by
  induction ds generalizing st with
  | nil => exact ⟨.nop, st, rfl, rfl, rfl⟩
  | cons d ds ih =>
    obtain ⟨c, st₁, h₁, hc, hst⟩ := (h d List.mem_cons_self).emits st
    obtain ⟨c', st₂, h₂, hc', hst'⟩ := ih (fun d hd => h d (List.mem_cons_of_mem _ hd)) st₁
    refine ⟨.seq c c', st₂, by simp [flushAll, h₁, h₂], ?_, hst'.trans hst⟩
    rw [Code.run, hc, hc', flushed]

theorem Fits.exits_ends (h : Fits ed ret loop p) :
    ∀ o t o', p.exits ret loop o t o' → o' = .normal ∨ o' = .halts := by
  intro o t o' hexit
  have hskip : ∀ {o'}, (skip : Behaviour Event) t o' → o' = .normal ∨ o' = .halts :=
    fun h => .inl h.2
  cases o with
  | normal | halts => exact hskip hexit
  | returns | fails =>
    rw [Pending.exits] at hexit
    split at hexit
    · exact flushed_ends (h.ofReturn (by assumption)) _ _ hexit
    · exact hskip hexit
  | breaks | continues =>
    rw [Pending.exits] at hexit
    split at hexit
    · obtain ⟨depth, loops, hloops, -, hgood⟩ := h.ofLoop (by assumption)
      rw [hloops] at hexit
      exact flushed_ends hgood _ _ hexit
    · exact hskip hexit

end

/-! ### Blocks and loops -/

section

variable {ed : Expr → Emitter → Option (Code × Emitter)} {ret loop : Bool} {p : Pending}

@[simp] theorem Pending.fromDepth_enterLoop (p : Pending) (depth : ℕ) :
    p.enterLoop.fromDepth depth = p.fromDepth depth := rfl

theorem Pending.fromDepth_length (p : Pending) : p.fromDepth p.frames.length = [] := by
  simp [Pending.fromDepth]

/-- A new frame is flushed before the others. -/
theorem Pending.fromDepth_cons {f : List Expr} {fs : List (List Expr)} {loops : List ℕ} {depth : ℕ}
    (h : depth ≤ fs.length) :
    Pending.fromDepth ⟨f :: fs, loops⟩ depth = f ++ Pending.fromDepth ⟨fs, loops⟩ depth := by
  have hlen : (f :: fs).length - depth = fs.length - depth + 1 := by
    rw [List.length_cons]
    omega
  simp only [Pending.fromDepth, hlen, List.take_succ_cons, List.flatten_cons]

theorem Fits.enterLoop (h : Fits ed ret loop p) : Fits ed ret true p.enterLoop where
  ofReturn := h.ofReturn
  ofLoop _ := ⟨_, _, rfl, le_rfl, by simp [Pending.fromDepth_length]⟩

theorem Pending.exits_enterLoop (loop : Bool) (p : Pending) :
    p.enterLoop.exits ret true = inLoop (p.exits ret loop) := by
  funext o
  have hnone : flushed (p.enterLoop.fromDepth (p.enterLoop.loops.headD 0)) = skip := by
    show flushed (p.fromDepth p.frames.length) = skip
    rw [Pending.fromDepth_length, flushed]
  cases o <;> first | rfl | exact hnone

theorem Fits.cons {f : List Expr} {fs : List (List Expr)} {loops : List ℕ}
    (h : Fits ed ret loop ⟨fs, loops⟩) (hf : ∀ d ∈ f, Emittable ed d) :
    Fits ed ret loop ⟨f :: fs, loops⟩ where
  ofReturn hret d hd := by
    rw [Pending.fromDepth_cons (Nat.zero_le _), List.mem_append] at hd
    exact hd.elim (hf d) (h.ofReturn hret d)
  ofLoop hloop := by
    obtain ⟨depth, loops', hloops, hle, hgood⟩ := h.ofLoop hloop
    refine ⟨depth, loops', hloops, Nat.le_succ_of_le hle, fun d hd => ?_⟩
    rw [Pending.fromDepth_cons hle, List.mem_append] at hd
    exact hd.elim (hf d) (hgood d)

theorem flushed_append (ds es : List Expr) :
    flushed (ds ++ es) = seq (flushed ds) (flushed es) := by
  induction ds with
  | nil => exact (skip_seq _).symm
  | cons d ds ih => rw [List.cons_append, flushed, flushed, ih, seq_assoc]

/-- Inside a block the jumps flush the block's own frame first. -/
theorem Fits.exits_cons {f : List Expr} {fs : List (List Expr)} {loops : List ℕ}
    (h : Fits ed ret loop ⟨fs, loops⟩) {o : Outcome} (ho : Allowed ret loop o) :
    Pending.exits ⟨f :: fs, loops⟩ ret loop o =
      seq (jumps (always (flushed f)) o) (Pending.exits ⟨fs, loops⟩ ret loop o) := by
  cases o with
  | normal | halts => exact (skip_seq _).symm
  | returns | fails =>
    have hret : ret = true := ho
    subst hret
    show flushed _ = seq (flushed f) (flushed _)
    rw [Pending.fromDepth_cons (Nat.zero_le _), flushed_append]
  | breaks | continues =>
    have hloop : loop = true := ho
    subst hloop
    obtain ⟨depth, loops', hloops, hle, -⟩ := h.ofLoop rfl
    have hhead : loops.headD 0 = depth := by
      rw [show loops = depth :: loops' from hloops]
      rfl
    show flushed _ = seq (flushed f) (flushed _)
    simp only [hhead]
    rw [Pending.fromDepth_cons hle, flushed_append]

end

/-! ### Cleanup at the exits -/

section

variable {p : Pending} {ret loop : Bool}

@[simp] theorem Pending.exits_normal : p.exits ret loop .normal = skip := rfl

theorem onExit_exits_skip : onExit (p.exits ret loop) skip = skip :=
  onExit_skip Pending.exits_normal

theorem onExit_exits_seq (a b : Behaviour Event) :
    onExit (p.exits ret loop) (seq a b) =
      seq (onExit (p.exits ret loop) a) (onExit (p.exits ret loop) b) :=
  onExit_seq Pending.exits_normal a b

theorem onExit_exits_op (e : Event) : onExit (p.exits ret loop) (op e) = op e := by
  refine onExit_eq_self ?_
  rintro _ _ (⟨-, rfl⟩ | ⟨-, rfl⟩) <;> rfl

theorem onExit_exits_halts : onExit (p.exits ret loop) (jump .halts) = jump .halts :=
  onExit_eq_self fun _ _ h => h.2 ▸ rfl

end

/-! ### The emission of a tree -/

/-- The emission of a program, where the pending statements are such that it may have to be emitted
with them. -/
def Emitted (fuel : ℕ) (ret loop : Bool) (a : Behaviour Event)
    (emission : Emitter → Option (Code × Emitter)) : Prop :=
  ∀ st, Fits (emitNested fuel) ret loop st.defers →
    Emits st.defers (onExit (st.defers.exits ret loop) a) (emission st)

theorem emitted_nop {fuel : ℕ} {ret loop : Bool} :
    Emitted fuel ret loop skip fun st => some (.nop, st) :=
  fun st _ => ⟨.nop, st, rfl, onExit_exits_skip.symm, rfl⟩

theorem emitted_op {fuel : ℕ} {ret loop : Bool} {e : Expr} (storage : Emitter → Option ℕ) :
    Emitted fuel ret loop (op (.eval e)) fun st => some (.op e (storage st), st) := by
  refine fun st _ => ⟨_, st, rfl, (onExit_eq_self ?_).symm, rfl⟩
  rintro _ _ (⟨-, rfl⟩ | ⟨-, rfl⟩) <;> rfl

section

variable {f : Outcome → Behaviour Event}

theorem onExit_whileParts (hf : f .normal = skip) (c : Expr) (test body : Behaviour Event) :
    (whileParts c test body).onExit f = whileParts c (onExit f test) (onExit (inLoop f) body) := by
  simp only [Parts.onExit, whileParts, onExit_skip hf]

theorem onExit_doWhileParts (hf : f .normal = skip) (c : Expr) (body test : Behaviour Event) :
    (doWhileParts c body test).onExit f =
      doWhileParts c (onExit (inLoop f) body) (onExit f test) := by
  simp only [Parts.onExit, doWhileParts, onExit_skip hf]

theorem onExit_forParts (test body step : Behaviour Event) :
    (forParts test body step).onExit f =
      forParts (onExit f test) (onExit (inLoop f) body) (onExit f step) := rfl

end

/-- The code of an exit: what is pending, and the jump. -/
theorem emits_exit {fuel : ℕ} (ret loop : Bool) (st : Emitter) {o : Outcome} {depth : ℕ}
    (hne : o ≠ .normal) (hgood : ∀ d ∈ st.defers.fromDepth depth, Emittable (emitNested fuel) d)
    (hexit : st.defers.exits ret loop o = flushed (st.defers.fromDepth depth)) :
    ∃ c st', flush (emitNested fuel) depth st = some (c, st') ∧ st'.defers = st.defers ∧
      seq c.run (jump o) = onExit (st.defers.exits ret loop) (jump o) := by
  obtain ⟨c, st', h, hc, hst⟩ := flushAll_emits hgood st
  exact ⟨c, st', h, hst, by rw [hc, onExit_jump hne, hexit]⟩

/-- A statement that keeps control can be emitted anywhere. -/
theorem emittable_of_emitted {d : Expr}
    (h : ∀ᶠ fuel in atTop, Emitted fuel false false (d.run .bare) (d.emit (emitNested fuel)))
    (hd : d.placed false false = true) :
    ∀ᶠ fuel in atTop, Emittable (emitNested fuel) d := by
  obtain ⟨fuel, h⟩ := Filter.eventually_atTop.mp h
  refine Filter.eventually_atTop.mpr ⟨fuel + 1, fun fuel' hle => ⟨fun st => ?_, ?_⟩⟩
  · obtain ⟨fuel', rfl⟩ := Nat.exists_eq_add_of_le' hle
    obtain ⟨c, st', hc, hrun, hst⟩ := h (fuel' + fuel) (by omega) st ⟨nofun, nofun⟩
    refine ⟨c, st', hc, hrun.trans (onExit_eq_self fun t o _ => ?_), hst⟩
    cases o <;> rfl
  · exact (Expr.run_within hd).mono fun _ => Allowed.settles

/-- One statement of a block, and the rest of the block. -/
theorem onExit_items {ed : Expr → Emitter → Option (Code × Emitter)} {ret loop : Bool}
    {f : List Expr} {fs : List (List Expr)} {loops : List ℕ} {a : Behaviour Event}
    (ha : Within (Allowed ret loop) a) (hfit : Fits ed ret loop ⟨fs, loops⟩)
    (hf : ∀ d ∈ f, Emittable ed d) (b : Behaviour Event) :
    onExit (Pending.exits ⟨fs, loops⟩ ret loop) (cleanup (seq a b) (flushed f)) =
      seq (onExit (Pending.exits ⟨f :: fs, loops⟩ ret loop) a)
        (onExit (Pending.exits ⟨fs, loops⟩ ret loop) (cleanup b (flushed f))) := by
  have hends : ∀ o t o', jumps (always (flushed f)) o t o' → o' = .normal ∨ o' = .halts := by
    intro o t o' h
    cases o with
    | normal | halts => exact .inl h.2
    | _ => exact flushed_ends hf _ _ h
  rw [cleanup, onExit_seq_last, onExit_exits_seq, onExit_onExit hends rfl]
  exact congrArg (seq · _) (onExit_congr fun t o h => (hfit.exits_cons (ha t o h)).symm)

mutual

/-- Enough fuel gives the code of a tree. -/
theorem Expr.emits {ret loop : Bool} : ∀ {e : Expr}, e.placed ret loop = true →
    ∀ᶠ fuel in atTop, Emitted fuel ret loop (e.run .bare) (e.emit (emitNested fuel))
  | .bool _, _ => .of_forall fun fuel => by
    simpa only [Expr.run, regular_bare, Expr.emit] using emitted_op fun _ => none
  | .name x s, _ => .of_forall fun fuel => by
    simpa only [Expr.run, regular_bare, Expr.emit] using emitted_op fun st => st.lookup x
  | .node kind children, h => by
    filter_upwards [emitChildren_emits (l := children) h] with fuel h st hfit
    obtain ⟨a, st₁, ha, hca, hst₁⟩ := h st hfit
    refine ⟨.seq a (.op (.node kind children) none), st₁, by simp [Expr.emit, ha], ?_, hst₁⟩
    simp only [Code.run, hca, Expr.run, regular_bare, Mode.inner_bare, onExit_exits_seq,
      onExit_exits_op]
  | .logical isAnd lhs rhs, h => by
    simp only [Expr.placed, Bool.and_eq_true] at h
    filter_upwards [Expr.emits h.1, Expr.emits h.2] with fuel h₁ h₂ st hfit
    obtain ⟨a, st₁, ha, hca, hst₁⟩ := h₁ st hfit
    obtain ⟨b, st₂, hb, hcb, hst₂⟩ := h₂ st₁ (hst₁ ▸ hfit)
    refine ⟨.seq a (if isAnd then .condBr lhs b .nop else .condBr lhs .nop b), st₂,
      by simp [Expr.emit, ha, hb], ?_, hst₂.trans hst₁⟩
    rw [hst₁] at hcb
    -- The right side is the first target of `&&` and the second of `||`.
    cases isAnd
    all_goals simp only [Code.run, hca, hcb, Expr.run, regular_bare, Mode.inner_bare,
      onExit_exits_seq, onExit_choice, onExit_given, onExit_exits_skip, if_true, if_false,
      Bool.not_true, Bool.not_false, Bool.false_eq_true]
    rw [choice_comm]
  | .varDecl x s inits, h => by
    filter_upwards [emitChildren_emits (l := inits) h] with fuel h st hfit
    obtain ⟨a, st₁, ha, hca, hst₁⟩ := h st hfit
    refine ⟨.seq a (.op (.varDecl x s inits) (some s)), st₁.declare x s, by simp [Expr.emit, ha],
      ?_, (Emitter.defers_declare ..).trans hst₁⟩
    simp only [Code.run, hca, Expr.run, regular_bare, Mode.inner_bare, onExit_exits_seq,
      onExit_exits_op]
  | .recoverProduce wrapped produce, h => by
    simp only [Expr.placed, Bool.and_eq_true] at h
    filter_upwards [Expr.emits h.1, Expr.emits h.2] with fuel h₁ h₂ st hfit
    obtain ⟨a, st₁, ha, hca, hst₁⟩ := h₁ st hfit
    obtain ⟨b, st₂, hb, hcb, hst₂⟩ := h₂ st₁ (hst₁ ▸ hfit)
    refine ⟨.seq a (.either .nop b), st₂, by simp [Expr.emit, ha, hb], ?_, hst₂.trans hst₁⟩
    rw [hst₁] at hcb
    simp only [Code.run, hca, hcb, Expr.run, regular_bare, Mode.inner_bare, onExit_exits_seq,
      onExit_choice, onExit_exits_skip]
  | .recoverRun wrapped bound block, h => by
    simp only [Expr.placed, Bool.and_eq_true] at h
    filter_upwards [Expr.emits h.1, Expr.emits h.2] with fuel h₁ h₂ st hfit
    obtain ⟨a, st₁, ha, hca, hst₁⟩ := h₁ st hfit
    have hrun : ∀ b : Code, b.run = onExit (st.defers.exits ret loop) (block.run .bare) →
        (Code.seq a (.either .nop b)).run = onExit (st.defers.exits ret loop)
          ((Expr.recoverRun wrapped bound block).run .bare) := fun b hcb => by
      simp only [Code.run, hca, hcb, Expr.run, regular_bare, Mode.inner_bare, Mode.runBlock_bare,
        onExit_exits_seq, onExit_choice, onExit_exits_skip]
    cases bound with
    | none =>
      obtain ⟨b, st₂, hb, hcb, hst₂⟩ := h₂ st₁ (hst₁ ▸ hfit)
      exact ⟨.seq a (.either .nop b), st₂, by simp [Expr.emit, ha, hb], hrun b (hst₁ ▸ hcb),
        hst₂.trans hst₁⟩
    | some v =>
      obtain ⟨b, st₂, hb, hcb, hst₂⟩ := h₂ (st₁.enterScope [v]) (hst₁ ▸ hfit)
      exact ⟨.seq a (.either .nop b), st₂.exitScope, by simp [Expr.emit, ha, hb],
        hrun b (hst₁ ▸ hcb), hst₂.trans hst₁⟩
  | .tryExpr operand, h => by
    simp only [Expr.placed, Bool.and_eq_true] at h
    obtain ⟨rfl, h⟩ := h
    filter_upwards [Expr.emits h] with fuel h st hfit
    obtain ⟨a, st₁, ha, hca, hst₁⟩ := h st hfit
    obtain ⟨b, st₂, hb, hst₂, hcb⟩ := emits_exit true loop st₁ (o := .fails) nofun
      (hst₁ ▸ hfit.ofReturn rfl) rfl
    refine ⟨.seq a (.either .nop (.seq b (.jump .fails))), st₂, by simp [Expr.emit, ha, hb], ?_,
      hst₂.trans hst₁⟩
    rw [hst₁] at hcb
    simp only [Code.run, hca, hcb, Expr.run, regular_bare, Mode.inner_bare, onExit_exits_seq,
      onExit_choice, onExit_exits_skip]
  | .unsafeBlock body, h => by
    filter_upwards [Expr.emits (e := body) h] with fuel h
    simpa only [Expr.run, Expr.emit] using h
  | .ifElse branches, h => by
    filter_upwards [Branches.emits (b := branches) h] with fuel h
    simpa only [Expr.run, Expr.emit] using h
  | .whileLoop cond body, h => by
    simp only [Expr.placed, Bool.and_eq_true] at h
    filter_upwards [Expr.emits h.1, Expr.emits h.2] with fuel h₁ h₂ st hfit
    obtain ⟨a, st₁, ha, hca, hst₁⟩ := h₁ st hfit
    obtain ⟨b, st₂, hb, hcb, hst₂⟩ := h₂ st₁.enterLoop (hst₁ ▸ hfit).enterLoop
    refine ⟨.whileLoop cond a b, st₂.exitLoop, by simp [Expr.emit, ha, hb], ?_,
      (congrArg Pending.exitLoop hst₂).trans hst₁⟩
    rw [show st₁.enterLoop.defers = st.defers.enterLoop from congrArg Pending.enterLoop hst₁,
      Pending.exits_enterLoop loop] at hcb
    simp only [Code.run, hca, hcb, Expr.run, Mode.header_bare, Mode.mark_bare, seq_skip]
    rw [onExit_loop Pending.exits_normal hfit.exits_ends, onExit_whileParts Pending.exits_normal]
  | .doWhile body cond, h => by
    simp only [Expr.placed, Bool.and_eq_true] at h
    filter_upwards [Expr.emits h.1, Expr.emits h.2] with fuel h₁ h₂ st hfit
    obtain ⟨b, st₁, hb, hcb, hst₁⟩ := h₁ st.enterLoop hfit.enterLoop
    have hst₁ : st₁.exitLoop.defers = st.defers := congrArg Pending.exitLoop hst₁
    obtain ⟨a, st₂, ha, hca, hst₂⟩ := h₂ st₁.exitLoop (hst₁ ▸ hfit)
    refine ⟨.doWhile cond b a, st₂, by simp [Expr.emit, ha, hb], ?_, hst₂.trans hst₁⟩
    rw [show st.enterLoop.defers = st.defers.enterLoop from rfl,
      Pending.exits_enterLoop loop] at hcb
    rw [hst₁] at hca
    simp only [Code.run, hca, hcb, Expr.run, Mode.header_bare, Mode.mark_bare, seq_skip]
    rw [onExit_loop Pending.exits_normal hfit.exits_ends, onExit_doWhileParts Pending.exits_normal]
  | .forRange x s start stop step body, h => by
    simp only [Expr.placed, Bool.and_eq_true] at h
    filter_upwards [Expr.emits h.1.1.1, Expr.emits h.1.1.2, Expr.emits h.1.2, Expr.emits h.2]
      with fuel h₁ h₂ h₃ h₄ st hfit
    obtain ⟨a, st₁, ha, hca, hst₁⟩ := h₁ st hfit
    obtain ⟨b, st₂, hb, hcb, hst₂⟩ := h₂ (st₁.enterScope [(x, s)]) (hst₁ ▸ hfit)
    have hst₂ : st₂.defers = st.defers := hst₂.trans hst₁
    obtain ⟨c, st₃, hc, hcc, hst₃⟩ := h₄ st₂.enterLoop (hst₂ ▸ hfit).enterLoop
    have hst₃ : st₃.exitLoop.defers = st.defers := (congrArg Pending.exitLoop hst₃).trans hst₂
    obtain ⟨d, st₄, hd, hcd, hst₄⟩ := h₃ st₃.exitLoop (hst₃ ▸ hfit)
    refine ⟨.seq a (.seq b (.forLoop c d)), st₄.exitScope, by simp [Expr.emit, ha, hb, hc, hd], ?_,
      hst₄.trans hst₃⟩
    rw [show st₂.enterLoop.defers = st.defers.enterLoop from congrArg Pending.enterLoop hst₂,
      Pending.exits_enterLoop loop] at hcc
    rw [show (st₁.enterScope [(x, s)]).defers = st.defers from hst₁] at hcb
    rw [hst₃] at hcd
    simp only [Code.run, hca, hcb, hcc, hcd, Expr.run, Mode.header_bare, Mode.mark_bare,
      onExit_exits_seq, seq_skip]
    rw [onExit_loop Pending.exits_normal hfit.exits_ends, onExit_forParts,
      onExit_exits_skip]
  | .forEach vars iterable body, h => by
    simp only [Expr.placed, Bool.and_eq_true] at h
    filter_upwards [Expr.emits h.1, Expr.emits h.2] with fuel h₁ h₂ st hfit
    obtain ⟨a, st₁, ha, hca, hst₁⟩ := h₁ st hfit
    obtain ⟨b, st₂, hb, hcb, hst₂⟩ :=
      h₂ (st₁.enterScope vars).enterLoop (hst₁ ▸ hfit).enterLoop
    refine ⟨.seq a (.forLoop (.seq (.either .nop (.jump .halts)) b) .nop), st₂.exitLoop.exitScope,
      by simp [Expr.emit, ha, hb], ?_, (congrArg Pending.exitLoop hst₂).trans hst₁⟩
    rw [show (st₁.enterScope vars).enterLoop.defers = st.defers.enterLoop from
      congrArg Pending.enterLoop hst₁] at hcb
    simp only [Code.run, hca, hcb, Expr.run, Mode.header_bare, Mode.mark_bare, onExit_exits_seq]
    rw [onExit_loop Pending.exits_normal hfit.exits_ends, onExit_forParts,
      ← Pending.exits_enterLoop loop, onExit_exits_seq, onExit_choice, onExit_exits_skip,
      onExit_exits_skip, onExit_exits_halts]
  | .compare subject arms, h => by
    simp only [Expr.placed, Bool.and_eq_true] at h
    filter_upwards [Expr.emits h.1, Arms.emits h.2] with fuel h₁ h₂ st hfit
    obtain ⟨a, st₁, ha, hca, hst₁⟩ := h₁ st hfit
    obtain ⟨b, st₂, hb, hcb, hst₂⟩ := h₂ st₁ (hst₁ ▸ hfit)
    refine ⟨.seq a b, st₂, by simp [Expr.emit, ha, hb], ?_, hst₂.trans hst₁⟩
    rw [hst₁] at hcb
    simp only [Code.run, hca, hcb, Expr.run, Mode.header_bare, Mode.mark_bare, onExit_exits_seq,
      skip_seq]
  | .returnVoid, h => by
    refine .of_forall fun fuel st hfit => ?_
    obtain rfl : ret = true := h
    obtain ⟨a, st₁, ha, hst₁, hca⟩ := emits_exit true loop st (o := .returns) nofun
      (hfit.ofReturn rfl) rfl
    refine ⟨.seq a (.jump .returns), st₁, by simp [Expr.emit, ha], ?_, hst₁⟩
    simp only [Code.run, hca, Expr.run, regular_bare, skip_seq]
  | .returnVal val, h => by
    simp only [Expr.placed, Bool.and_eq_true] at h
    obtain ⟨rfl, h⟩ := h
    filter_upwards [Expr.emits h] with fuel h st hfit
    obtain ⟨a, st₁, ha, hca, hst₁⟩ := h st hfit
    obtain ⟨b, st₂, hb, hst₂, hcb⟩ := emits_exit true loop st₁ (o := .returns) nofun
      (hst₁ ▸ hfit.ofReturn rfl) rfl
    refine ⟨.seq a (.seq b (.jump .returns)), st₂, by simp [Expr.emit, ha, hb], ?_,
      hst₂.trans hst₁⟩
    rw [hst₁] at hcb
    simp only [Code.run, hca, hcb, Expr.run, regular_bare, Mode.inner_bare, onExit_exits_seq]
  | .breakLoop, h => by
    refine .of_forall fun fuel st hfit => ?_
    obtain rfl : loop = true := h
    obtain ⟨depth, loops, hloops, -, hgood⟩ := hfit.ofLoop rfl
    obtain ⟨a, st₁, ha, hst₁, hca⟩ := emits_exit ret true st (o := .breaks) nofun
      hgood (by simp [Pending.exits, hloops])
    exact ⟨.seq a (.jump .breaks), st₁, by simp [Expr.emit, hloops, ha], hca, hst₁⟩
  | .continueLoop, h => by
    refine .of_forall fun fuel st hfit => ?_
    obtain rfl : loop = true := h
    obtain ⟨depth, loops, hloops, -, hgood⟩ := hfit.ofLoop rfl
    obtain ⟨a, st₁, ha, hst₁, hca⟩ := emits_exit ret true st (o := .continues) nofun
      hgood (by simp [Pending.exits, hloops])
    exact ⟨.seq a (.jump .continues), st₁, by simp [Expr.emit, hloops, ha], hca, hst₁⟩
  | .defer _, h => by simp [Expr.placed] at h
  | .block exprs, h => by
    filter_upwards [emitStmts_emits (l := exprs) h] with fuel h st hfit
    obtain ⟨a, st₁, f, ha, hst₁, hf, hrun⟩ := h st.enterBlock [] st.defers.frames st.defers.loops rfl
      hfit (by simp)
    have hflush : st₁.defers.fromDepth (st₁.defers.frames.length - 1) = f := by
      simp [hst₁, Pending.fromDepth]
    obtain ⟨b, st₂, hb, hcb, hst₂⟩ := flushAll_emits hf st₁
    rw [← hflush] at hb
    refine ⟨.seq a b, st₂.exitBlock, by simp [Expr.emit, ha, flush, hb], ?_, ?_⟩
    · rw [Code.run, hcb, hrun, flushed, cleanup_by_skip, Expr.run]
    · show st₂.defers.popFrame = st.defers
      rw [hst₂, hst₁]
      rfl

theorem Branches.emits {ret loop : Bool} : ∀ {b : Branches}, b.placed ret loop = true →
    ∀ᶠ fuel in atTop, Emitted fuel ret loop (b.run .bare) (b.emit (emitNested fuel))
  | .noElse, _ => .of_forall fun _ => emitted_nop
  | .elseBody body, h => by
    filter_upwards [Expr.emits (e := body) h] with fuel h
    simpa only [Branches.run, Branches.emit] using h
  | .branch cond body rest, h => by
    simp only [Branches.placed, Bool.and_eq_true] at h
    filter_upwards [Expr.emits h.1.1, Expr.emits h.1.2, Branches.emits h.2] with
      fuel h₁ h₂ h₃ st hfit
    obtain ⟨a, st₁, ha, hca, hst₁⟩ := h₁ st hfit
    obtain ⟨b, st₂, hb, hcb, hst₂⟩ := h₂ st₁ (hst₁ ▸ hfit)
    have hst₂ : st₂.defers = st.defers := hst₂.trans hst₁
    obtain ⟨c, st₃, hc, hcc, hst₃⟩ := h₃ st₂ (hst₂ ▸ hfit)
    refine ⟨.seq a (.condBr cond b c), st₃, by simp [Branches.emit, ha, hb, hc], ?_,
      hst₃.trans hst₂⟩
    rw [hst₁] at hcb
    rw [hst₂] at hcc
    simp only [Code.run, hca, hcb, hcc, Branches.run, Mode.header_bare, Mode.mark_bare, skip_seq,
      onExit_exits_seq, onExit_choice, onExit_given]

theorem Arms.emits {ret loop : Bool} : ∀ {a : Arms}, a.placed ret loop = true →
    ∀ᶠ fuel in atTop, Emitted fuel ret loop (a.run .bare) (a.emit (emitNested fuel))
  | .noOtherBody exhaustive, _ => .of_forall fun fuel st _ =>
    ⟨.noMatch exhaustive, st, rfl, by simp only [Code.run, Arms.run, onExit_given, onExit_exits_skip],
      rfl⟩
  | .otherBody body, h => by
    filter_upwards [Expr.emits (e := body) h] with fuel h
    simpa only [Arms.run, Arms.emit] using h
  | .arm bindings headers body rest, h => by
    simp only [Arms.placed, Bool.and_eq_true] at h
    filter_upwards [Headers.emits h.1.1, Expr.emits h.1.2, Arms.emits h.2] with
      fuel h₁ h₂ h₃ st hfit
    obtain ⟨tests, st₁, ha, hca, hst₁⟩ := h₁ (st.enterScope bindings) hfit
    have hst₁ : st₁.defers = st.defers := hst₁
    obtain ⟨b, st₂, hb, hcb, hst₂⟩ := h₂ st₁ (hst₁ ▸ hfit)
    have hst₂ : st₂.defers = st.defers := hst₂.trans hst₁
    obtain ⟨c, st₃, hc, hcc, hst₃⟩ := h₃ st₂.exitScope (hst₂ ▸ hfit)
    refine ⟨.arm tests b c, st₃, by simp [Arms.emit, ha, hb, hc], ?_, hst₃.trans hst₂⟩
    rw [hst₁] at hcb
    rw [show st₂.exitScope.defers = st.defers from hst₂] at hcc
    simp only [Code.run, hcb, hcc, Arms.run]
    exact (hca _ _).symm

/-- The tests of an arm, whatever its body and the rest of the chain do. -/
theorem Headers.emits {ret loop : Bool} : ∀ {hs : Headers}, hs.placed ret loop = true →
    ∀ᶠ fuel in atTop, ∀ st, Fits (emitNested fuel) ret loop st.defers → ∃ tests st',
      hs.emit (emitNested fuel) st = some (tests, st') ∧
      (∀ body rest, onExit (st.defers.exits ret loop) (hs.run .bare body rest) =
        tests.run (onExit (st.defers.exits ret loop) body) (onExit (st.defers.exits ret loop) rest)) ∧
      st'.defers = st.defers
  | .nil, _ => .of_forall fun _ st _ => ⟨.nil, st, rfl, fun _ _ => rfl, rfl⟩
  | .header val more, h => by
    simp only [Headers.placed, Bool.and_eq_true] at h
    filter_upwards [Expr.emits h.1, Headers.emits h.2] with fuel h₁ h₂ st hfit
    obtain ⟨a, st₁, ha, hca, hst₁⟩ := h₁ st hfit
    obtain ⟨tests, st₂, hb, hcb, hst₂⟩ := h₂ st₁ (hst₁ ▸ hfit)
    refine ⟨.test a tests, st₂, by simp [Headers.emit, ha, hb], fun body rest => ?_,
      hst₂.trans hst₁⟩
    rw [hst₁] at hcb
    simp only [Headers.run, Tests.run, Mode.header_bare, Mode.mark_bare, skip_seq, hca,
      onExit_exits_seq, onExit_choice, hcb]
  | .guarded val guard more, h => by
    simp only [Headers.placed, Bool.and_eq_true] at h
    filter_upwards [Expr.emits h.1.1, Expr.emits h.1.2, Headers.emits h.2] with
      fuel h₁ h₂ h₃ st hfit
    obtain ⟨a, st₁, ha, hca, hst₁⟩ := h₁ st hfit
    obtain ⟨b, st₂, hb, hcb, hst₂⟩ := h₂ st₁ (hst₁ ▸ hfit)
    have hst₂ : st₂.defers = st.defers := hst₂.trans hst₁
    obtain ⟨tests, st₃, hc, hcc, hst₃⟩ := h₃ st₂ (hst₂ ▸ hfit)
    refine ⟨.guarded a guard b tests, st₃, by simp [Headers.emit, ha, hb, hc], fun body rest => ?_,
      hst₃.trans hst₂⟩
    rw [hst₁] at hcb
    rw [hst₂] at hcc
    simp only [Headers.run, Tests.run, Mode.header_bare, Mode.mark_bare, skip_seq, hca, hcb,
      onExit_exits_seq, onExit_choice, onExit_given, hcc]

/-- The statements of a block, with what they add to the frame of the block. -/
theorem emitStmts_emits {ret loop : Bool} : ∀ {l : List Expr}, placedItems ret loop l = true →
    ∀ᶠ fuel in atTop, ∀ st f fs loops, st.defers = ⟨f :: fs, loops⟩ →
      Fits (emitNested fuel) ret loop ⟨fs, loops⟩ → (∀ d ∈ f, Emittable (emitNested fuel) d) →
      ∃ c st' f', emitStmts (emitNested fuel) l st = some (c, st') ∧
        st'.defers = ⟨f' :: fs, loops⟩ ∧ (∀ d ∈ f', Emittable (emitNested fuel) d) ∧
        seq c.run (flushed f') = onExit (Pending.exits ⟨fs, loops⟩ ret loop)
          (cleanup (runItems l .bare) (flushed f))
  | [], _ => by
    refine .of_forall fun fuel st f fs loops hst hfit hf => ⟨.nop, st, f, rfl, hst, hf, ?_⟩
    rw [Code.run, skip_seq, runItems, cleanup_skip]
    refine (onExit_eq_self fun t o h => ?_).symm
    obtain rfl | rfl := flushed_ends hf t o h <;> rfl
  | e :: es, h => by
    cases e with
    | defer stmt =>
      simp only [placedItems, Bool.and_eq_true] at h
      filter_upwards [emittable_of_emitted (Expr.emits h.1) h.1, emitStmts_emits h.2]
        with fuel hstmt hes st f fs loops hst hfit hf
      have hpend : st.defers.pend stmt = some ⟨(stmt :: f) :: fs, loops⟩ := by rw [hst]; rfl
      obtain ⟨c, st₁, f', hc, hst₁, hf', hrun⟩ := hes { st with defers := ⟨(stmt :: f) :: fs, loops⟩ }
        (stmt :: f) fs loops rfl hfit (List.forall_mem_cons.mpr ⟨hstmt, hf⟩)
      refine ⟨.seq .nop c, st₁, f', by simp [emitStmts, Expr.emit, hpend, hc], hst₁, hf', ?_⟩
      rw [Code.run, Code.run, skip_seq, hrun, runItems, Mode.note_bare, Mode.mark_bare, skip_seq,
        skip_seq, Mode.note_bare, Mode.mark_bare, seq_skip, seq_skip,
        Mode.deferred_bare, cleanup_cleanup hstmt.ends, flushed]
    | _ =>
      simp only [placedItems, Bool.and_eq_true] at h
      filter_upwards [Expr.emits h.1, emitStmts_emits h.2] with fuel h₁ h₂ st f fs loops hst hfit hf
      obtain ⟨a, st₁, ha, hca, hst₁⟩ := h₁ st (hst ▸ hfit.cons hf)
      obtain ⟨c, st₂, f', hc, hst₂, hf', hrun⟩ := h₂ st₁ f fs loops (hst₁.trans hst) hfit hf
      refine ⟨.seq a c, st₂, f', by simp [emitStmts, ha, hc], hst₂, hf', ?_⟩
      rw [hst] at hca
      rw [Code.run, Behaviour.seq_assoc, hrun, hca]
      exact (onExit_items (Expr.run_within h.1) hfit hf _).symm

theorem emitChildren_emits {ret loop : Bool} : ∀ {l : List Expr}, placedAll ret loop l = true →
    ∀ᶠ fuel in atTop, Emitted fuel ret loop (runAll l .bare) (emitChildren (emitNested fuel) l)
  | [], _ => .of_forall fun _ => emitted_nop
  | e :: es, h => by
    simp only [placedAll, Bool.and_eq_true] at h
    filter_upwards [Expr.emits h.1, emitChildren_emits h.2] with fuel h₁ h₂ st hfit
    obtain ⟨a, st₁, ha, hca, hst₁⟩ := h₁ st hfit
    obtain ⟨b, st₂, hb, hcb, hst₂⟩ := h₂ st₁ (hst₁ ▸ hfit)
    refine ⟨.seq a b, st₂, by simp [emitChildren, ha, hb], ?_, hst₂.trans hst₁⟩
    rw [hst₁] at hcb
    simp only [Code.run, hca, hcb, runAll, onExit_exits_seq]

end

/-! ### Function bodies -/

/-- The code of a body, from enough fuel on. -/
theorem exists_codegenBody (params : List (String × ℕ)) {body : Expr}
    (h : body.placed true false = true) :
    ∃ n, ∀ fuel ≥ n, ∃ code, codegenBody fuel params body = some code ∧
      code.run = body.run .bare := by
  obtain ⟨n, hn⟩ := Filter.eventually_atTop.mp (Expr.emits h)
  refine ⟨n + 1, fun fuel hle => ?_⟩
  obtain ⟨fuel, rfl⟩ := Nat.exists_eq_add_of_le' hle
  have hfit : Fits (emitNested (fuel + n)) true false ⟨[], []⟩ := ⟨fun _ _ hd => (by cases hd), nofun⟩
  obtain ⟨code, st, hcode, hrun, -⟩ :=
    hn (fuel + n) (Nat.le_add_left n fuel) { defers := ⟨[], []⟩, scopes := [params.reverse] } hfit
  refine ⟨code, congrArg (Option.map Prod.fst) hcode, hrun.trans (onExit_eq_self fun t o _ => ?_)⟩
  cases o <;> rfl

/-- The code of a body whose deferred statements keep control has the runs of the body; and in each
of them the deferred statements that are reached are finished once each, the last first, before the
run ends, unless it is cut off. -/
theorem codegenBody_runs (params : List (String × ℕ)) {body : Expr}
    (h : body.placed true false = true) :
    ∃ n, ∀ fuel ≥ n, ∃ code, codegenBody fuel params body = some code ∧
      (∀ t o, code.run t o ↔ body.run .bare t o) ∧
      ∀ t o, code.run t o → ∃ t', body.run .hidden t' o ∧ t'.filter Event.isEval = t ∧
        ∀ waiting, ∃ left, Settled waiting t' (left ++ waiting) ∧ (o ≠ .halts → left = []) := by
  obtain ⟨n, hn⟩ := exists_codegenBody params h
  refine ⟨n, fun fuel hle => ?_⟩
  obtain ⟨code, hcode, hrun⟩ := hn fuel hle
  refine ⟨code, hcode, fun t o => by rw [hrun], fun t o ht => ?_⟩
  rw [hrun, ← Expr.only_run .hidden] at ht
  obtain ⟨t', ht', rfl⟩ := ht
  exact ⟨t', ht', rfl, Expr.tidy_run (m := .hidden) nofun h t' o ht'⟩

/-- A loop whose body defers a call, and returns from within. -/
def deferInLoop : Expr :=
  .block [.defer (.node (.call "close") []),
    .whileLoop (.name "more" 0) (.block [.defer (.node (.call "unlock") []),
      .ifElse (.branch (.name "done" 1) (.block [.returnVoid]) .noElse), .node (.call "step") []])]

theorem codegenBody_runs_deferInLoop : ∃ n, ∀ fuel ≥ n, ∃ code,
    codegenBody fuel [] deferInLoop = some code ∧
      (∀ t o, code.run t o ↔ deferInLoop.run .bare t o) ∧
      ∀ t o, code.run t o → ∃ t', deferInLoop.run .hidden t' o ∧ t'.filter Event.isEval = t ∧
        ∀ waiting, ∃ left, Settled waiting t' (left ++ waiting) ∧ (o ≠ .halts → left = []) :=
  codegenBody_runs [] (by decide)

end TurfLang.Ast
