import TurfLang.Analysis.AliasConverge
import TurfLang.Lib.Descent

/-!
# A program on which the alias pass does not end

Facts about one variable are its entry and the two sets of sites, and where all effects are about
that variable the worklist loop is simulated on them. The program at the end releases the variable
after a loop that acquires it again: the release frees the first site until the loop is known, and
nothing after that. The site that may be freed, and its being taken back, then go round the last
loop one behind the other.
-/

namespace TurfLang.Alias

open Descent

/-! ### Facts about one variable -/

/-- Facts about variable 0. -/
structure One where
  entry : Option (Option Site) := none
  mayFreed : Finset Site := ∅
  mustFreed : Finset Site := ∅
deriving DecidableEq

namespace One

/-- The facts of the pass. -/
def toState (o : One) : State where
  points := match o.entry with
    | none => ∅
    | some v => (∅ : Std.ExtTreeMap Var (Option Site)).insert 0 v
  mayFreed := o.mayFreed
  mustFreed := o.mustFreed

/-- `State.apply` of an effect on variable 0. -/
def apply (o : One) : Effect → One
  | .acquire _ site _ =>
    ⟨some (some site), o.mayFreed.erase site, o.mustFreed.erase site⟩
  | .release _ =>
    match o.entry.join with
    | some aid => ⟨o.entry, insert aid o.mayFreed, insert aid o.mustFreed⟩
    | none => o
  | _ => o

/-- `State.meet`. -/
def meet (o q : One) : One where
  entry := o.entry.map fun v => if q.entry = some v then v else none
  mayFreed := o.mayFreed ∪ q.mayFreed
  mustFreed := o.mustFreed.filter (· ∈ q.mustFreed)

/-- `Cfg.join`, over the facts that the processed blocks leave. -/
def join (outs : List (Option One)) (preds : List ℕ) : One :=
  match preds.filterMap fun p => (outs[p]?).join with
  | [] => {}
  | first :: rest => rest.foldl meet first

/-- The queue, and the facts that the processed blocks leave. -/
structure Config where
  queue : List ℕ
  outs : List (Option One)
deriving DecidableEq

/-- One turn of the worklist loop; there is none on an empty queue. -/
def turn (cfg : Cfg) (c : Config) : Option Config :=
  match c.queue with
  | [] => none
  | b :: rest =>
    let out := (cfg.effects b).foldl apply (join c.outs (cfg.preds b))
    if c.outs[b]? = some (some out) then some { c with queue := rest }
    else some ⟨rest ++ cfg.succs b, c.outs.set b (some out)⟩

/-! ### The simulation -/

theorem getElem?_toState (o : One) (x : Var) :
    o.toState.points[x]? = if x = 0 then o.entry else none := by
  rw [toState]
  cases o.entry with
  | none => simp
  | some v =>
    simp only [Std.ExtTreeMap.getElem?_insert]
    by_cases hx : x = 0
    · simp [hx]
    · simp [hx, Ne.symm hx]

theorem toState_injective : Function.Injective toState := by
  intro o q h
  have hentry : o.entry = q.entry := by
    have hpoints := getElem?_toState o 0
    rw [h, getElem?_toState] at hpoints
    simpa using hpoints.symm
  have hmay : o.mayFreed = q.mayFreed := congrArg State.mayFreed h
  have hmust : o.mustFreed = q.mustFreed := congrArg State.mustFreed h
  cases o
  cases q
  simp_all

/-- Facts are equal when their entries and their sets of sites are. -/
theorem state_eq {s t : State} (hpoints : ∀ x : Var, s.points[x]? = t.points[x]?)
    (hmay : s.mayFreed = t.mayFreed) (hmust : s.mustFreed = t.mustFreed) : s = t := by
  have hpoints := Std.ExtTreeMap.ext_getElem? hpoints
  cases s
  cases t
  simp_all

theorem toState_meet (o q : One) : (o.meet q).toState = o.toState.meet q.toState := by
  refine state_eq (fun x => ?_) rfl rfl
  rw [getElem?_toState, State.meet, Std.ExtTreeMap.getElem?_map, getElem?_toState,
    getElem?_toState]
  by_cases hx : x = 0
  · simp only [if_pos hx]
    rfl
  · simp only [if_neg hx]
    rfl

theorem toState_foldl_meet (o : One) (os : List One) :
    (os.foldl meet o).toState = (os.map toState).foldl State.meet o.toState := by
  induction os generalizing o with
  | nil => rfl
  | cons q os ih => rw [List.foldl_cons, List.map_cons, List.foldl_cons, ih, toState_meet]

end One

/-- An effect that is about variable 0, or none. -/
def Effect.single : Effect → Bool
  | .acquire x _ _ => x = 0
  | .release x => x = 0
  | .copy _ _ => false
  | _ => true

namespace One

theorem toState_apply (o : One) {eff : Effect} (h : eff.single = true) :
    (o.apply eff).toState = o.toState.apply eff := by
  cases eff with
  | acquire x site released =>
    obtain rfl : x = 0 := by simpa [Effect.single] using h
    refine state_eq (fun z => ?_) rfl rfl
    rw [State.apply, getElem?_acquire, getElem?_toState, getElem?_toState]
    by_cases hz : z = 0
    · simp [hz, apply]
    · simp [hz]
  | release x =>
    obtain rfl : x = 0 := by simpa [Effect.single] using h
    rw [apply_release, getElem?_toState, if_pos rfl, apply]
    cases o.entry.join with
    | none => rfl
    | some aid => rfl
  | copy x y => cases h
  | reassign x => rfl
  | nothing => rfl

theorem toState_foldl_apply (o : One) {effs : List Effect} (h : ∀ eff ∈ effs, eff.single = true) :
    (effs.foldl apply o).toState = effs.foldl State.apply o.toState := by
  induction effs generalizing o with
  | nil => rfl
  | cons eff effs ih =>
    rw [List.foldl_cons, List.foldl_cons, ih _ fun eff he => h eff (List.mem_cons_of_mem _ he),
      toState_apply o (h eff List.mem_cons_self)]

/-- The queue is that of the worklist loop, and the facts of the processed blocks are. -/
structure Simulates (cfg : Cfg) (c : Config) (work : List ℕ) (s : Solution) : Prop where
  queue : work = c.queue
  length : c.outs.length = cfg.size
  lt : ∀ b ∈ work, b < cfg.size
  visited : ∀ b, s.visited b = (c.outs[b]?).join.isSome
  out : ∀ b o, (c.outs[b]?).join = some o → s.out b = o.toState

section Simulation

variable {cfg : Cfg} {c : Config} {b : ℕ} {work : List ℕ} {s : Solution}

theorem Simulates.join_eq (h : Simulates cfg c work s) (b : ℕ) :
    cfg.join s b = (join c.outs (cfg.preds b)).toState := by
  have hmap : ((cfg.preds b).filter fun p => s.visited p).map s.out =
      ((cfg.preds b).filterMap fun p => (c.outs[p]?).join).map toState := by
    induction cfg.preds b with
    | nil => rfl
    | cons p ps ih =>
      rw [List.filter_cons, List.filterMap_cons, h.visited p]
      cases hp : (c.outs[p]?).join with
      | none => exact ih
      | some o => simpa [h.out p o hp] using ih
  rw [Cfg.join, hmap, join]
  cases (cfg.preds b).filterMap fun p => (c.outs[p]?).join with
  | nil => rfl
  | cons o os => exact (toState_foldl_meet o os).symm

/-- Each turn of the worklist loop is one of the simulation. -/
theorem Simulates.turn (h : Simulates cfg c (b :: work) s)
    (hsingle : ∀ eff ∈ cfg.effects b, eff.single = true) : ∃ c', One.turn cfg c = some c' ∧
      Simulates cfg c' (if (cfg.process b s).2 then work ++ cfg.succs b else work)
        (cfg.process b s).1 := by
  have hb : b < c.outs.length := h.length ▸ h.lt b List.mem_cons_self
  have hlt : ∀ q ∈ work, q < cfg.size := fun q hq => h.lt q (List.mem_cons_of_mem _ hq)
  let out := (cfg.effects b).foldl apply (join c.outs (cfg.preds b))
  have hleave : cfg.leave b s = out.toState := by
    rw [leave_eq, h.join_eq, toState_foldl_apply _ hsingle]
  have hturn : One.turn cfg c = if c.outs[b]? = some (some out) then some { c with queue := work }
      else some ⟨work ++ cfg.succs b, c.outs.set b (some out)⟩ := by
    rw [One.turn, ← h.queue]
  by_cases hsame : c.outs[b]? = some (some out)
  case pos =>
    have hvisited : s.visited b = true := by rw [h.visited, hsame]; rfl
    have hout : s.out b = out.toState := h.out b out (by rw [hsame]; rfl)
    have hquiet : (cfg.process b s).2 = false := by
      rw [Bool.eq_false_iff, Ne, process_changed, hleave, hout, hvisited]
      simp
    refine ⟨{ c with queue := work }, by rw [hturn, if_pos hsame], ?_⟩
    rw [hquiet, if_neg Bool.false_ne_true]
    refine ⟨rfl, h.length, hlt, fun q => ?_, fun q o hq => ?_⟩
    · obtain rfl | hne := eq_or_ne q b
      · rw [(visited_process q).mpr (.inr rfl), ← hvisited, h.visited]
      · rw [visited_process_of_ne hne, h.visited]
    · obtain rfl | hne := eq_or_ne q b
      · rw [out_process_self, hleave, ← hout, h.out q o hq]
      · rw [out_process_of_ne hne, h.out q o hq]
  case neg =>
    have hchanged : (cfg.process b s).2 = true := by
      rw [process_changed, hleave, h.visited, or_iff_not_imp_left]
      intro hvisited heq
      obtain ⟨o, ho⟩ := Option.ne_none_iff_exists'.mp (by simpa using hvisited)
      rw [h.out b o ho] at heq
      obtain rfl : out = o := toState_injective heq
      exact hsame (Option.join_eq_some_iff.mp ho)
    refine ⟨⟨work ++ cfg.succs b, c.outs.set b (some out)⟩, by rw [hturn, if_neg hsame], ?_⟩
    rw [hchanged, if_pos rfl]
    refine ⟨rfl, by rw [List.length_set, h.length], fun q hq => ?_, fun q => ?_, fun q o hq => ?_⟩
    · obtain hq | hq := List.mem_append.mp hq
      · exact hlt q hq
      · exact cfg.succs_lt b q hq
    · obtain rfl | hne := eq_or_ne q b
      · rw [(visited_process q).mpr (.inr rfl), List.getElem?_set_self hb]
        rfl
      · rw [visited_process_of_ne hne, List.getElem?_set_ne hne.symm, h.visited]
    · obtain rfl | hne := eq_or_ne q b
      · rw [List.getElem?_set_self hb] at hq
        obtain rfl : out = o := Option.some.inj hq
        rw [out_process_self, hleave]
      · rw [List.getElem?_set_ne hne.symm] at hq
        rw [out_process_of_ne hne, h.out q o hq]

/-- Where the simulation never ends the worklist loop does not. -/
theorem runOnCFG_eq_none {start : Config} (hsingle : ∀ b, ∀ eff ∈ cfg.effects b, eff.single = true)
    (hstart : Simulates cfg start (List.range cfg.size) {})
    (hforever : ∀ k, (walk (One.turn cfg) k start).isSome) (fuel : ℕ) :
    cfg.runOnCFG fuel = none := by
  have hsolve : Dataflow.solve cfg.succs cfg.process fuel (List.range cfg.size) {} = none := by
    refine Dataflow.solve_eq_none
      (P := fun work s => ∃ k c, walk (One.turn cfg) k start = some c ∧ Simulates cfg c work s)
      ?_ ?_ fuel ⟨0, start, rfl, hstart⟩
    · rintro s ⟨k, c, hc, hs⟩
      have hnext := hforever (k + 1)
      rw [walk_add, hc, Option.bind_some, walk, One.turn, ← hs.queue] at hnext
      cases hnext
    · rintro b work s ⟨k, c, hc, hs⟩
      obtain ⟨c', hc', hs'⟩ := hs.turn (hsingle b)
      refine ⟨k + 1, c', ?_, hs'⟩
      rw [walk_add, hc, Option.bind_some, walk, hc']
      rfl
  rw [Cfg.runOnCFG, hsolve]
  rfl

end Simulation

end One

/-! ### The program -/

/-- The edges, in the order the builder adds them. -/
def twoLoopsEdges : List (ℕ × ℕ) :=
  [(0, 3), (0, 2), (3, 4), (4, 5), (4, 6), (5, 4), (6, 2), (2, 7), (7, 8), (7, 9), (8, 11),
    (8, 12), (11, 10), (12, 10), (10, 7), (9, 1)]

/-- The statements of `mut x = malloc(n); if c { while d { x = malloc(n); } } free(x);
while e { if f { } else { } }`, block by block. -/
def twoLoopsStatements (b : ℕ) : List Expr :=
  if b = 0 then [.varDecl 0 (mallocCall 1), .var 1]
  else if b = 2 then [freeCall 3 0]
  else if b = 4 then [.var 2]
  else if b = 5 then [.assignment (.var 0) (mallocCall 2)]
  else if b = 7 then [.var 3]
  else if b = 8 then [.var 4]
  else []

/-- Where the program acquires. -/
theorem acquired_twoLoops {b i : ℕ} {e : Expr} {site : Site}
    (he : (twoLoopsStatements b)[i]? = some e) (hacq : e.acquired = some site) :
    (b, i, site) = (0, 0, 1) ∨ (b, i, site) = (5, 0, 2) := by
  have hmalloc (id : ℕ) : (mallocCall id).isAcquire = true := by
    simp [mallocCall, Expr.isAcquire, Expr.calledFunction, Callee.acquires]
  unfold twoLoopsStatements at he
  split_ifs at he
  all_goals rcases i with _ | _ | i
  all_goals simp at he
  all_goals subst he
  all_goals simp_all [Expr.acquired, freeCall, mallocCall, Expr.loc]

/-- Its CFG. -/
def twoLoops : Cfg where
  size := 13
  statements := twoLoopsStatements
  succs b := (twoLoopsEdges.filter fun e => e.1 = b).map Prod.snd
  preds c := (twoLoopsEdges.filter fun e => e.2 = c).map Prod.fst
  mem_preds b c := by simp [and_comm]
  succs_lt b c hc := by
    have hmem : (b, c) ∈ twoLoopsEdges := by simpa using hc
    have hlt : ∀ e ∈ twoLoopsEdges, e.2 < 13 := by decide
    exact hlt _ hmem
  entry_preds := by decide
  once b c i j e f site he hf hacq hacq' := by
    obtain h | h := acquired_twoLoops he hacq
    all_goals obtain h' | h' := acquired_twoLoops hf hacq'
    all_goals simp_all

/-- Where the run starts. -/
def twoLoopsStart : One.Config := ⟨List.range 13, List.replicate 13 none⟩

/-- After 34 turns the configuration is one that comes again every 48 turns. -/
theorem walk_twoLoops : ∃ c, walk (One.turn twoLoops) 34 twoLoopsStart = some c ∧
    walk (One.turn twoLoops) 48 c = some c := by
  have hagain : walk (One.turn twoLoops) (34 + 48) twoLoopsStart =
      walk (One.turn twoLoops) 34 twoLoopsStart := by decide +kernel
  have hsome : (walk (One.turn twoLoops) 34 twoLoopsStart).isSome := by decide +kernel
  obtain ⟨c, hc⟩ := Option.isSome_iff_exists.mp hsome
  rw [walk_add, hc, Option.bind_some] at hagain
  exact ⟨c, hc, hagain⟩

theorem single_twoLoops (b : ℕ) : ∀ eff ∈ twoLoops.effects b, eff.single = true := by
  have heffects : twoLoops.effects b = (twoLoopsStatements b).flatMap Expr.effects := rfl
  rw [heffects, twoLoopsStatements]
  split_ifs
  all_goals decide +kernel

/-- The compiler never comes back from this program. -/
theorem not_runOnCFG_twoLoops : ¬ ∀ cfg : Cfg, ∃ fuel reports, cfg.runOnCFG fuel = some reports := by
  intro h
  obtain ⟨fuel, reports, hrun⟩ := h twoLoops
  obtain ⟨c, hc, hagain⟩ := walk_twoLoops
  have hstart : One.Simulates twoLoops twoLoopsStart (List.range twoLoops.size) {} := by
    have hnothing (b : ℕ) : (twoLoopsStart.outs[b]?).join = none := by
      rw [twoLoopsStart, List.getElem?_replicate]
      split
      · rfl
      · rfl
    refine ⟨rfl, rfl, fun b hb => List.mem_range.mp hb, fun b => ?_, fun b o hb => ?_⟩
    · rw [hnothing]
      rfl
    · rw [hnothing] at hb
      cases hb
  have hnone := One.runOnCFG_eq_none single_twoLoops hstart (walk_isSome_of_cycle hc hagain) fuel
  rw [hnone] at hrun
  cases hrun

end TurfLang.Alias
