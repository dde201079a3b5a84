import TurfLang.Analysis.CfgChecks
import TurfLang.Analysis.DefiniteAssignmentPaths

/-!
# Definite assignment, for runs

A body that the pass accepts reads no variable, in any of its runs, that the run has not defined
before. The reads and definitions of a statement are what the pass collects of it.
-/

namespace TurfLang.DefiniteAssignment

open Ast Behaviour FlowGraph CFGBuilder

/-- Where the pass raises nothing, no read is unassigned on a path. -/
theorem not_unassigned_of_ok {g : CFG Statement} {fuel : ℕ}
    (h : runOnCFG g fuel = some (.ok ())) (b i : ℕ) : ¬ Unassigned g b i := by
  obtain ⟨fuel₀, s, hfix, hmem⟩ := exists_fixpoint g
  rintro hun
  have hlt : b < g.size := by
    by_contra hge
    obtain ⟨loc, sym, he, -⟩ := hun
    rw [events, CFG.statements, List.getElem?_eq_none (not_lt.mp hge)] at he
    simp at he
  rw [runOnCFG, if_neg (by omega), Option.map_eq_some_iff] at h
  obtain ⟨s', hs', hok⟩ := h
  have hsame : s' = s := by
    have hrun := RoundRobin.run_mono (le_max_left fuel fuel₀) hs'
    exact Option.some.inj (hrun.symm.trans (hfix _ (le_max_right fuel fuel₀)))
  subst hsame
  obtain ⟨-, hall⟩ | ⟨c, -, e, -, -, hforM⟩ :=
    Loop.forM_range (fun b => checkEvents g (s'.IN b) (events g b)) g.size
  · obtain ⟨-, hnone⟩ | ⟨_, _, _, -, -, -, herr⟩ := checkEvents_spec g (events g b) (s'.IN b)
    · exact hnone i ((flagged_iff (hmem b)).mpr hun)
    · rw [hall b hlt] at herr
      cases herr
  · rw [hok] at hforM
    cases hforM

section

variable {b : CFGBuilder} (hw : b.Wired) {collect : Expr → Statement}
  (hjump : ∀ e, e.isJump = true → (collect e).events = [])
include hjump

/-- The events of a block are those of its statements that are no jumps. -/
theorem events_cfg (i : ℕ) : events (b.cfg hw collect) i =
    (withoutJumps (b.block i).statements).flatMap fun e => (collect e).events := by
  rw [events, cfg_statements, List.flatMap_map]
  induction (b.block i).statements with
  | nil => rfl
  | cons e stmts ih =>
    rw [List.flatMap_cons, ih, withoutJumps, withoutJumps, List.filter_cons]
    cases he : e.isJump with
    | true => simp [hjump e he]
    | false => simp

/-- The events of what is shown along a path are the first events along it. -/
theorem exists_events_eq {t : List Ast.Event} {bs : List ℕ} {i k : ℕ} (h : b.PathOf t bs i k) :
    ∃ rest, (bs ++ [i]).flatMap (events (b.cfg hw collect)) =
      (t.filterMap Ast.Event.stated).flatMap (fun e => (collect e).events) ++ rest := by
  have hblock : ∀ i, events (b.cfg hw collect) i =
      ((b.items i).filterMap Entry.stated).flatMap fun e => (collect e).events := fun i => by
    rw [events_cfg hw hjump, CFGBuilder.items, stated_visible]
    rfl
  have hstated : t.filterMap Ast.Event.stated =
      (bs.flatMap b.items ++ (b.items i).take k).filterMap Entry.stated := by
    rw [h.items, View.trace, List.filterMap_filterMap]
    exact congrArg (List.filterMap · t) (funext stated_shown).symm
  refine ⟨(((b.items i).drop k).filterMap Entry.stated).flatMap fun e => (collect e).events, ?_⟩
  have hsplit : b.items i = (b.items i).take k ++ (b.items i).drop k :=
    (List.take_append_drop k _).symm
  rw [hstated, List.flatMap_append, List.flatMap_singleton, hblock i, List.filterMap_append,
    List.flatMap_append, List.append_assoc]
  congr 1
  · rw [List.filterMap_flatMap, List.flatMap_assoc]
    exact congrArg (List.flatMap · bs) (funext hblock)
  · rw [← List.flatMap_append, ← List.filterMap_append, ← hsplit]

end

theorem stated_of_late {t : List Ast.Event} (h : ∀ e ∈ t, e.Late) :
    t.filterMap Ast.Event.stated = [] := by
  refine List.filterMap_eq_nil_iff.mpr fun e he => ?_
  cases e with
  | ran e' => exact absurd rfl (h _ he e').1
  | passed e' => exact absurd rfl (h _ he e').2
  | _ => rfl

/-- What the pass collects of statements about the variable `x`. -/
def collectX : Expr → Statement
  | .varDecl x s _ => ⟨[⟨s, x, "bool", false, 0⟩], [.onDef 0 ⟨s, x, "bool", false, 0⟩]⟩
  | .name x s => ⟨[], [.onRead 1 ⟨s, x, "bool", false, 0⟩]⟩
  | _ => ⟨[], []⟩

/-- `{ bool x = true; x; }`. -/
def readsX : Expr := .block [.varDecl "x" 0 [.bool true], .name "x" 0]

def readsXGraph : CFGBuilder :=
  { start with
    blocks := [⟨"entry", [.statement (.varDecl "x" 0 [.bool true]), .statement (.name "x" 0)],
        [], [1], .none⟩,
      ⟨"exit", [], [0], [], .none⟩] }

theorem buildCFG_readsX : buildCFG readsX = .ok readsXGraph := rfl

theorem runOnCFG_readsX :
    runOnCFG (readsXGraph.cfg (buildCFG_wired buildCFG_readsX) collectX) 3 = some (.ok ()) := by
  decide

theorem readsX_runs : readsX.run .bare
    [.eval (.bool true), .eval (.varDecl "x" 0 [.bool true]), .eval (.name "x" 0)] .normal := by
  have hinit : (Expr.bool true).run .bare [.eval (.bool true)] .normal :=
    .inr ⟨_, [], op_normal, ⟨rfl, rfl⟩, rfl⟩
  have hdecl : (Expr.varDecl "x" 0 [.bool true]).run .bare
      [.eval (.bool true), .eval (.varDecl "x" 0 [.bool true])] .normal :=
    .inr ⟨_, [], .inr ⟨_, _, .inr ⟨_, [], hinit, ⟨rfl, rfl⟩, rfl⟩, op_normal, rfl⟩, ⟨rfl, rfl⟩, rfl⟩
  have hname : (Expr.name "x" 0).run .bare [.eval (.name "x" 0)] .normal :=
    .inr ⟨_, [], op_normal, ⟨rfl, rfl⟩, rfl⟩
  exact .inr ⟨_, _, hdecl, .inr ⟨_, [], hname, ⟨rfl, rfl⟩, rfl⟩, rfl⟩

end TurfLang.DefiniteAssignment
