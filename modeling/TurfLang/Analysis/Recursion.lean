import TurfLang.Analysis.Cfg

/-!
# `CFG.cpp`: recursion without a base case

`allPathsRecurse` searches, depth first, for a path from the entry to the exit that meets no block
with a call of the function itself. The search keeps the blocks on its own path only, so it follows
every path that meets no block twice; a path without a self-call can be cut down to one of those.
-/

namespace TurfLang

/-! ### Blocks with a self-call -/

/-- What a call is resolved to. -/
structure CallTarget where
  baseName : String
  mangledName : String
  deriving DecidableEq

/-- The expressions that `blockContainsSelfCall` looks into; any other is `other`. -/
inductive CallExpr
  | funcCall (resolvedCallTarget : Option CallTarget) (callee : Option String)
      (args : List CallExpr)
  | binary (lhs rhs : CallExpr)
  | unary (operand : CallExpr)
  | tryExpr (operand : CallExpr)
  | returnExpr (val : Option CallExpr)
  | varDecl (init : Option CallExpr)
  | assignment (lhs rhs : CallExpr)
  | other

/-- Whether a call is of the function itself. A resolved target decides; without one the name of a
callee that is a variable does. -/
def isSelfCall (funcName mangledFuncName : String) (resolvedCallTarget : Option CallTarget)
    (callee : Option String) : Bool :=
  match resolvedCallTarget with
  | some target =>
    if mangledFuncName ≠ "" then target.mangledName = mangledFuncName
    else target.baseName = funcName
  | none => callee = some funcName

mutual

/-- `scan`. -/
def CallExpr.scan (funcName mangledFuncName : String) : CallExpr → Bool
  | .funcCall target callee args =>
    isSelfCall funcName mangledFuncName target callee ||
      CallExpr.scanArgs funcName mangledFuncName args
  | .binary lhs rhs => lhs.scan funcName mangledFuncName || rhs.scan funcName mangledFuncName
  | .unary operand => operand.scan funcName mangledFuncName
  | .tryExpr operand => operand.scan funcName mangledFuncName
  | .returnExpr val => CallExpr.scanOpt funcName mangledFuncName val
  | .varDecl init => CallExpr.scanOpt funcName mangledFuncName init
  | .assignment lhs rhs => lhs.scan funcName mangledFuncName || rhs.scan funcName mangledFuncName
  | .other => false

/-- `scan` of what may be null. -/
def CallExpr.scanOpt (funcName mangledFuncName : String) : Option CallExpr → Bool
  | none => false
  | some e => e.scan funcName mangledFuncName

/-- `scan` of the arguments of a call. -/
def CallExpr.scanArgs (funcName mangledFuncName : String) : List CallExpr → Bool
  | [] => false
  | arg :: args => arg.scan funcName mangledFuncName || scanArgs funcName mangledFuncName args

end

namespace CFG

/-- `blockContainsSelfCall`. -/
def blockContainsSelfCall (cfg : CFG CallExpr) (funcName mangledFuncName : String) (b : ℕ) : Bool :=
  (cfg.statements b).any fun stmt => stmt.scan funcName mangledFuncName

/-! ### The search -/

variable {σ : Type} (cfg : CFG σ) (selfCall : ℕ → Bool) (exit : ℕ)

/-- `dfs`: whether all paths from `cur` to the exit that do not come back to `onPath` meet a block
with a self-call. Each call adds a block of the graph to `onPath`, so the search ends. -/
def allRecurseFrom (cur : ℕ) (seenSelfCall : Bool) (onPath : Finset ℕ) : Bool :=
  let nowSeen := seenSelfCall || selfCall cur
  if cur = exit then nowSeen
  else if cur ∈ onPath then true
  else if cfg.successors cur = [] then true
  else (cfg.successors cur).all fun succ => allRecurseFrom succ nowSeen (insert cur onPath)
termination_by (Finset.range cfg.size \ onPath).card
decreasing_by
  rename_i hpath hsuccs
  obtain ⟨s, hs⟩ := List.exists_mem_of_ne_nil _ hsuccs
  refine Finset.card_lt_card ⟨fun b hb => ?_, fun hsub => ?_⟩
  · simp only [Finset.mem_sdiff, Finset.mem_insert, not_or] at hb ⊢
    exact ⟨hb.1, hb.2.2⟩
  · have hcur : cur ∈ Finset.range cfg.size \ onPath :=
      Finset.mem_sdiff.mpr ⟨Finset.mem_range.mpr (lt_of_mem_successors hs).1, hpath⟩
    exact (Finset.mem_sdiff.mp (hsub hcur)).2 (Finset.mem_insert_self _ _)

/-- `allPathsRecurse`, given the blocks that contain a self-call. -/
def allPathsRecurse (exitBlock : Option ℕ) : Bool :=
  match cfg.entryBlock, exitBlock with
  | some entry, some exit =>
    if (List.range cfg.size).any selfCall then cfg.allRecurseFrom selfCall exit entry false ∅
    else false
  | _, _ => false

/-! ### What it finds -/

/-- From `b` a path leads to the exit that meets no self-call and no block of `avoid`. -/
inductive Unmarked (avoid : Finset ℕ) : ℕ → Prop
  | exit (hmark : selfCall exit = false) : Unmarked avoid exit
  | step {b s : ℕ} (hb : b ∉ avoid) (hmark : selfCall b = false) (hs : s ∈ cfg.successors b)
      (h : Unmarked avoid s) : Unmarked avoid b

variable {cfg selfCall exit}

theorem Unmarked.selfCall_eq {avoid : Finset ℕ} {b : ℕ} (h : cfg.Unmarked selfCall exit avoid b) :
    selfCall b = false := by
  cases h with
  | exit hmark => exact hmark
  | step _ hmark _ _ => exact hmark

theorem Unmarked.mono {avoid avoid' : Finset ℕ} (hsub : avoid ⊆ avoid') {b : ℕ}
    (h : cfg.Unmarked selfCall exit avoid' b) : cfg.Unmarked selfCall exit avoid b := by
  induction h with
  | exit hmark => exact .exit hmark
  | step hb hmark hs _ ih => exact .step (fun hmem => hb (hsub hmem)) hmark hs ih

/-- A path that comes back to `c` goes on from there by one that does not. -/
theorem Unmarked.cut {avoid : Finset ℕ} (c : ℕ) {b : ℕ} (h : cfg.Unmarked selfCall exit avoid b) :
    cfg.Unmarked selfCall exit (insert c avoid) b ∨
      ∃ s ∈ cfg.successors c, cfg.Unmarked selfCall exit (insert c avoid) s := by
  induction h with
  | exit hmark => exact .inl (.exit hmark)
  | @step b s hb hmark hs _ ih =>
    obtain hrest | hrest := ih
    · by_cases hbc : b = c
      · exact .inr ⟨s, hbc ▸ hs, hrest⟩
      · refine .inl (.step ?_ hmark hs hrest)
        rw [Finset.mem_insert, not_or]
        exact ⟨hbc, hb⟩
    · exact .inr hrest

theorem allRecurseFrom_eq_false (cur : ℕ) (seenSelfCall : Bool) (onPath : Finset ℕ) :
    cfg.allRecurseFrom selfCall exit cur seenSelfCall onPath = false ↔
      seenSelfCall = false ∧ cfg.Unmarked selfCall exit onPath cur := by
  induction cur, seenSelfCall, onPath using allRecurseFrom.induct cfg selfCall exit with
  | case1 seenSelfCall onPath =>
    rw [allRecurseFrom, if_pos rfl, Bool.or_eq_false_iff]
    exact and_congr_right fun _ => ⟨.exit, Unmarked.selfCall_eq⟩
  | case2 cur seenSelfCall onPath hexit hpath =>
    rw [allRecurseFrom, if_neg hexit, if_pos hpath]
    refine iff_of_false (by simp) ?_
    rintro ⟨-, hunmarked⟩
    cases hunmarked with
    | exit => exact hexit rfl
    | step hb => exact hb hpath
  | case3 cur seenSelfCall onPath hexit hpath hsuccs =>
    rw [allRecurseFrom, if_neg hexit, if_neg hpath, if_pos hsuccs]
    refine iff_of_false (by simp) ?_
    rintro ⟨-, hunmarked⟩
    cases hunmarked with
    | exit => exact hexit rfl
    | step _ _ hs =>
      rw [hsuccs] at hs
      cases hs
  | case4 cur seenSelfCall onPath nowSeen hexit hpath hsuccs ih =>
    rw [allRecurseFrom, if_neg hexit, if_neg hpath, if_neg hsuccs, List.all_eq_false]
    constructor
    · rintro ⟨s, hs, hfalse⟩
      obtain ⟨hseen, hrest⟩ := (ih s).mp (by simpa using hfalse)
      obtain ⟨hseen, hmark⟩ := Bool.or_eq_false_iff.mp hseen
      exact ⟨hseen, .step hpath hmark hs (hrest.mono (Finset.subset_insert _ _))⟩
    · rintro ⟨hseen, hunmarked⟩
      have hmark := hunmarked.selfCall_eq
      -- The path may come back to `cur`; it is cut where it leaves `cur` for the last time.
      obtain ⟨s, hs, hrest⟩ : ∃ s ∈ cfg.successors cur,
          cfg.Unmarked selfCall exit (insert cur onPath) s := by
        cases hunmarked with
        | exit => exact absurd rfl hexit
        | step _ _ hs h =>
          obtain hrest | hrest := h.cut cur
          · exact ⟨_, hs, hrest⟩
          · exact hrest
      refine ⟨s, hs, ?_⟩
      rw [(ih s).mpr ⟨by simp [nowSeen, hseen, hmark], hrest⟩]
      simp

/-- Without blocks to avoid, these are the paths of the graph from the entry to the exit. -/
theorem unmarked_iff_path {entry : ℕ} (he : cfg.entryBlock = some entry) :
    cfg.Unmarked selfCall exit ∅ entry ↔
      ∃ bs, cfg.Path bs exit ∧ ∀ b ∈ bs ++ [exit], selfCall b = false := by
  have hentry : cfg.entryIdx = entry := by rw [entryIdx, he, Option.getD_some]
  constructor
  · intro h
    have hgo : ∀ b, cfg.Unmarked selfCall exit ∅ b → ∀ bs, cfg.Path bs b →
        (∀ c ∈ bs, selfCall c = false) →
        ∃ bs, cfg.Path bs exit ∧ ∀ c ∈ bs ++ [exit], selfCall c = false := by
      intro b h
      induction h with
      | exit hmark =>
        intro bs hpath hbs
        refine ⟨bs, hpath, fun c hc => ?_⟩
        obtain hc | hc := List.mem_append.mp hc
        · exact hbs c hc
        · rwa [List.mem_singleton.mp hc]
      | @step b s _ hmark hs _ ih =>
        intro bs hpath hbs
        refine ih (bs ++ [b]) (.step hpath hs) fun c hc => ?_
        obtain hc | hc := List.mem_append.mp hc
        · exact hbs c hc
        · rwa [List.mem_singleton.mp hc]
    exact hgo entry h [] (hentry ▸ .entry) (by simp)
  · rintro ⟨bs, hpath, hbs⟩
    have hgo : ∀ bs b, cfg.Path bs b → (∀ c ∈ bs, selfCall c = false) →
        cfg.Unmarked selfCall exit ∅ b → cfg.Unmarked selfCall exit ∅ entry := by
      intro bs b hpath
      induction hpath with
      | entry => exact fun _ h => hentry ▸ h
      | @step bs b c _ hc ih =>
        intro hbs h
        refine ih (fun d hd => hbs d (List.mem_append_left _ hd)) ?_
        exact .step (by simp) (hbs b (by simp)) hc h
    refine hgo bs exit hpath (fun c hc => hbs c (List.mem_append_left _ hc)) ?_
    exact .exit (hbs exit (by simp))

/-- The search is exact: a graph with an entry and an exit is told to recurse without a base case
iff some block has a self-call, and every path from the entry to the exit, of any length, passes
through one that has. -/
theorem allPathsRecurse_iff (cfg : CFG σ) (selfCall : ℕ → Bool) (exitBlock : Option ℕ) :
    cfg.allPathsRecurse selfCall exitBlock = true ↔
      ∃ exit ∈ exitBlock, cfg.entryBlock.isSome ∧ (∃ b < cfg.size, selfCall b = true) ∧
        ∀ bs, cfg.Path bs exit → ∃ b ∈ bs ++ [exit], selfCall b = true := by
  unfold allPathsRecurse
  cases he : cfg.entryBlock with
  | none => simp
  | some entry =>
    cases exitBlock with
    | none => simp
    | some exit =>
      have hsearch : cfg.allRecurseFrom selfCall exit entry false ∅ = true ↔
          ∀ bs, cfg.Path bs exit → ∃ b ∈ bs ++ [exit], selfCall b = true := by
        rw [← Bool.not_eq_false, allRecurseFrom_eq_false, unmarked_iff_path he]
        simp only [true_and, not_exists, not_and, not_forall, Bool.not_eq_false, exists_prop]
      have hsome : (List.range cfg.size).any selfCall = true ↔ ∃ b < cfg.size, selfCall b = true := by
        simp
      dsimp only
      split
      case isTrue hany =>
        rw [hsearch]
        simp [hsome.mp hany]
      case isFalse hany =>
        refine iff_of_false (by simp) ?_
        rintro ⟨-, -, -, hmarked, -⟩
        exact hany (hsome.mpr hmarked)

/-- The claim that the graph of a function is told to recurse iff the exit can be reached and every
path to it passes through a self-call. -/
def RecursionNeedsExit : Prop :=
  ∀ (cfg : CFG CallExpr) (exit : ℕ) (funcName mangledFuncName : String),
    cfg.allPathsRecurse (cfg.blockContainsSelfCall funcName mangledFuncName) (some exit) = true →
      ∃ bs, cfg.Path bs exit

/-- `fn f() { while true { f(); } }`: the body of the loop, and the exit, which nothing leads to. -/
def endlessLoop : CFG CallExpr where
  blocks := [⟨[.funcCall (some ⟨"f", "turf_f"⟩) (some "f") []], [0], [0]⟩, ⟨[], [], []⟩]
  entryBlock := some 0
  entry_lt := by decide
  successors_lt := by simp
  predecessors_lt := by simp
  mem_predecessors := by decide

theorem not_recursionNeedsExit : ¬ RecursionNeedsExit := by
  intro h
  have hstays : ∀ bs b, endlessLoop.Path bs b → b = 0 := by
    intro bs b hpath
    induction hpath with
    | entry => rfl
    | @step bs b c _ hc ih =>
      subst ih
      simpa [successors, endlessLoop] using hc
  have htrue : endlessLoop.allPathsRecurse (endlessLoop.blockContainsSelfCall "f" "turf_f")
      (some 1) = true := by
    have hsearch : endlessLoop.allRecurseFrom (endlessLoop.blockContainsSelfCall "f" "turf_f") 1 0
        false ∅ = true := by
      rw [← Bool.not_eq_false, allRecurseFrom_eq_false, unmarked_iff_path rfl]
      rintro ⟨-, bs, hpath, -⟩
      exact absurd (hstays bs 1 hpath) (by decide)
    have hsome : (List.range endlessLoop.size).any
        (endlessLoop.blockContainsSelfCall "f" "turf_f") = true := by
      simp [endlessLoop, size, statements, blockContainsSelfCall, CallExpr.scan, isSelfCall,
        List.range_succ]
    unfold allPathsRecurse
    show (if (List.range endlessLoop.size).any _ = true then _ else false) = true
    rw [if_pos hsome, hsearch]
  obtain ⟨bs, hpath⟩ := h endlessLoop 1 "f" "turf_f" htrue
  exact absurd (hstays bs 1 hpath) (by decide)

end CFG

end TurfLang
