import TurfLang.Analysis.AliasSound

/-!
# When the alias pass converges

The facts of a block are compared with those of an earlier turn: a points-to entry is new, the
same or unknown now, more sites may be freed and fewer must be. `transfer` is monotone in this
order but for a release, which acts on a known site only. The join is monotone but for the
predecessor that comes first, whose entries it keeps, and for entries that another predecessor
gets later. In a run in which no turn takes a fact back in one of these ways the facts move one
way only, so the worklist empties.
-/

namespace TurfLang.Alias

open Dataflow

/-! ### The effects of a block -/

namespace Expr

mutual

/-- The variables that `recurse` releases, in order. -/
def releasing : Expr → List Var
  | null => []
  | leaf => []
  | var _ => []
  | call id callee args => (call id callee args).releasedVariable.toList
  | access _ _ _ => []
  | node children => releasingAll children
  | assignment lhs rhs => lhs.releasing ++ rhs.releasing
  | varDecl _ init => init.releasing

def releasingAll : List Expr → List Var
  | [] => []
  | e :: es => e.releasing ++ releasingAll es

end

/-- What `transferOther` does to the facts. -/
def otherEffects (e : Expr) : List Effect :=
  if e.releases then e.releasedVariable.toList.map .release else e.releasing.map .release

/-- What `x = rhs` does to the facts, where `rest` is what another statement does. -/
def assignEffects (x : Var) (rhs : Expr) (rest : List Effect) : List Effect :=
  if rhs.isAcquire then [.acquire x rhs.loc none]
  else
    match rhs with
    | var y => [.copy x y]
    | _ => rest

/-- What a turn of `transfer` does to the facts. -/
def effects (e : Expr) : List Effect :=
  match e with
  | assignment (var x) rhs => assignEffects x rhs e.otherEffects
  | varDecl x init => assignEffects x init e.otherEffects
  | _ => e.otherEffects

end Expr

/-- What `transfer` does to the facts. -/
def Cfg.effects (cfg : Cfg) (b : ℕ) : List Effect := (cfg.statements b).flatMap Expr.effects

section Effects

variable {report : Bool} {stmt : ℕ × ℕ} {w : Scan}

theorem visit_state (e : Expr) : (visit report stmt e w).state =
    (e.releasedVariable.toList.map Effect.release).foldl State.apply w.state := by
  unfold visit
  cases e.releasedVariable with
  | none =>
    simp only [Option.toList_none, List.map_nil, List.foldl_nil]
    split
    · exact use_state
    · rfl
  | some x =>
    simp only [Option.toList_some, List.map_cons, List.map_nil, List.foldl_cons, List.foldl_nil]
    split
    · exact use_state.trans release_state
    · exact release_state

mutual

theorem recurse_state (e : Expr) (w : Scan) : (recurse report stmt e w).state =
    (e.releasing.map Effect.release).foldl State.apply w.state := by
  cases e with
  | null => rfl
  | leaf => exact visit_state _
  | var x => exact visit_state _
  | call id callee args => exact visit_state _
  | access id base index => exact visit_state _
  | node children =>
    rw [recurse, recurseAll_state, visit_state]
    rfl
  | assignment lhs rhs =>
    rw [recurse, recurse_state rhs, recurse_state lhs, visit_state, Expr.releasing,
      List.map_append, List.foldl_append]
    rfl
  | varDecl x init =>
    rw [recurse, recurse_state init, visit_state]
    rfl

theorem recurseAll_state (es : List Expr) (w : Scan) : (recurseAll report stmt es w).state =
    ((Expr.releasingAll es).map Effect.release).foldl State.apply w.state := by
  cases es with
  | nil => rfl
  | cons e es =>
    rw [recurseAll, recurseAll_state es, recurse_state e, Expr.releasingAll, List.map_append,
      List.foldl_append]

end

theorem transferOther_state (e : Expr) :
    (transferOther report stmt e w).state = e.otherEffects.foldl State.apply w.state := by
  unfold transferOther Expr.otherEffects
  split
  · cases e.releasedVariable with
    | none => rfl
    | some x => exact release_state
  · rw [recurse_state]
    split
    · rw [use_state]
    · rfl

theorem assign_state (x : Var) (rhs : Expr) {rest : Scan} {effs : List Effect}
    (hrest : rest.state = effs.foldl State.apply w.state) :
    ((assign x rhs w).getD rest).state =
      (Expr.assignEffects x rhs effs).foldl State.apply w.state := by
  unfold assign Expr.assignEffects
  split
  · rfl
  · cases rhs with
    | var y => rfl
    | _ => exact hrest

theorem transferStmt_state (e : Expr) :
    (transferStmt report stmt e w).state = e.effects.foldl State.apply w.state := by
  cases e with
  | assignment lhs rhs =>
    cases lhs with
    | var x => exact assign_state x rhs (transferOther_state _)
    | _ => exact transferOther_state _
  | varDecl x init => exact assign_state x init (transferOther_state _)
  | _ => exact transferOther_state _

theorem transfer_state (cfg : Cfg) (b : ℕ) (w : Scan) :
    (cfg.transfer report b w).state = (cfg.effects b).foldl State.apply w.state := by
  suffices ∀ (es : List Expr) (i : ℕ) (w : Scan), (Cfg.transferFrom report b i es w).state =
      (es.flatMap Expr.effects).foldl State.apply w.state from this _ 0 w
  intro es
  induction es with
  | nil => exact fun _ _ => rfl
  | cons e es ih =>
    intro i w
    rw [Cfg.transferFrom, ih, transferStmt_state, List.flatMap_cons, List.foldl_append]

end Effects

/-! ### The order of the facts -/

/-- How an entry of `Points` moves: from no entry on, and from a site to an unknown value. -/
inductive Fades : Option (Option Site) → Option (Option Site) → Prop
  | absent (v : Option (Option Site)) : Fades none v
  | known (v : Option Site) : Fades (some v) (some none)
  | refl (v : Option (Option Site)) : Fades v v

/-- An entry stays one. -/
theorem Fades.ne_none {u v : Option (Option Site)} (h : Fades u v) (hu : u ≠ none) : v ≠ none := by
  cases h with
  | absent => exact absurd rfl hu
  | known => exact Option.some_ne_none _
  | refl => exact hu

/-- A known site was the same or no entry before. -/
theorem Fades.of_known {v : Option (Option Site)} {aid : Site} (h : Fades v (some (some aid))) :
    v = none ∨ v = some (some aid) := by
  cases h with
  | absent => exact .inl rfl
  | refl => exact .inr rfl

/-- The points-to sets and the sites that may be freed grow, and the sites that must be freed
shrink. -/
structure State.Below (s t : State) : Prop where
  points : ∀ x : Var, Fades s.points[x]? t.points[x]?
  mayFreed : s.mayFreed ⊆ t.mayFreed
  mustFreed : t.mustFreed ⊆ s.mustFreed

theorem State.Below.refl (s : State) : s.Below s :=
  ⟨fun _ => .refl _, Finset.Subset.refl _, Finset.Subset.refl _⟩

theorem Fades.trans {u v w : Option (Option Site)} (h : Fades u v) (h' : Fades v w) :
    Fades u w := by
  cases h with
  | absent => exact .absent w
  | known v =>
    cases h' with
    | known => exact .known v
    | refl => exact .known v
  | refl => exact h'

theorem State.Below.trans {s t u : State} (h : s.Below t) (h' : t.Below u) : s.Below u where
  points x := (h.points x).trans (h'.points x)
  mayFreed := h.mayFreed.trans h'.mayFreed
  mustFreed := h'.mustFreed.trans h.mustFreed

/-- The sites the releases among the effects free, one after the other: none where the value is
not a known site. -/
def State.freed : State → List Effect → List (Option Site)
  | _, [] => []
  | s, eff :: effs =>
    (match eff with
      | .release x => [s.points[x]?.join]
      | _ => []) ++ State.freed (s.apply eff) effs

theorem getElem?_alias (s : State) (x y z : Var) :
    (s.alias x y).points[z]? = if z = x then s.points[y]? else s.points[z]? := by
  rw [State.alias]
  split
  · rename_i p hp
    rw [Std.ExtTreeMap.getElem?_insert]
    by_cases hz : z = x
    · simp [hz, hp]
    · simp [hz, Ne.symm hz]
  · rename_i hp
    rw [Std.ExtTreeMap.getElem?_erase]
    by_cases hz : z = x
    · simp [hz, hp]
    · simp [hz, Ne.symm hz]

theorem getElem?_acquire (s : State) (x : Var) (aid : Site) (z : Var) :
    (s.acquire x aid).points[z]? = if z = x then some (some aid) else s.points[z]? := by
  rw [State.acquire, Std.ExtTreeMap.getElem?_insert]
  by_cases hz : z = x
  · simp [hz]
  · simp [hz, Ne.symm hz]

/-- What a release does, by the site it frees. -/
theorem apply_release (s : State) (x : Var) : s.apply (.release x) =
    match s.points[x]?.join with
    | some aid => { s with mayFreed := insert aid s.mayFreed, mustFreed := insert aid s.mustFreed }
    | none => s := by
  rw [State.apply]
  rcases s.points[x]? with _ | _ | aid
  all_goals rfl

namespace State.Below

variable {s t : State}

theorem acquire (h : s.Below t) (x : Var) (aid : Site) :
    (s.acquire x aid).Below (t.acquire x aid) where
  points z := by
    rw [getElem?_acquire, getElem?_acquire]
    split
    · exact .refl _
    · exact h.points z
  mayFreed := Finset.erase_subset_erase aid h.mayFreed
  mustFreed := Finset.erase_subset_erase aid h.mustFreed

theorem copy (h : s.Below t) (x y : Var) : (s.alias x y).Below (t.alias x y) where
  points z := by
    rw [getElem?_alias, getElem?_alias]
    split
    · exact h.points y
    · exact h.points z
  mayFreed := h.mayFreed
  mustFreed := h.mustFreed

/-- A release that frees the same site keeps the order. -/
theorem release (h : s.Below t) {x : Var} (hx : s.points[x]?.join = t.points[x]?.join) :
    (s.apply (.release x)).Below (t.apply (.release x)) := by
  rw [apply_release, apply_release, ← hx]
  cases s.points[x]?.join with
  | none => exact h
  | some aid =>
    exact ⟨h.points, Finset.insert_subset_insert aid h.mayFreed,
      Finset.insert_subset_insert aid h.mustFreed⟩

/-- Effects whose releases free the same sites keep the order. -/
theorem foldl_apply {effs : List Effect} (h : s.Below t) (hfreed : s.freed effs = t.freed effs) :
    (effs.foldl State.apply s).Below (effs.foldl State.apply t) := by
  induction effs generalizing s t with
  | nil => exact h
  | cons eff effs ih =>
    rw [List.foldl_cons, List.foldl_cons]
    cases eff with
    | acquire x site released => exact ih (h.acquire x site) hfreed
    | copy x y => exact ih (h.copy x y) hfreed
    | reassign x => exact ih h hfreed
    | nothing => exact ih h hfreed
    | release x =>
      obtain ⟨hx, hfreed⟩ := List.cons.inj hfreed
      exact ih (h.release hx) hfreed

end State.Below

/-! ### Joins -/

/-- The predecessor whose entries `join` keeps: the first one that is processed. -/
def Cfg.base (cfg : Cfg) (s : Solution) (c : ℕ) : Option ℕ :=
  (cfg.preds c).find? fun p => s.visited p

section Join

theorem getElem?_foldl_meet (first : State) (rest : List State) (x : Var) :
    (rest.foldl State.meet first).points[x]? = first.points[x]?.map fun v =>
      if ∀ t ∈ rest, t.points[x]? = some v then v else none := by
  induction rest generalizing first with
  | nil => simp
  | cons t rest ih =>
    rw [List.foldl_cons, ih, State.meet, Std.ExtTreeMap.getElem?_map, Option.map_map]
    refine Option.map_congr fun v _ => ?_
    by_cases hv : t.points[x]? = some v
    · simp [hv]
    · simp [hv]

theorem mem_foldl_meet_mayFreed {first : State} {rest : List State} {aid : Site} :
    aid ∈ (rest.foldl State.meet first).mayFreed ↔ ∃ t ∈ first :: rest, aid ∈ t.mayFreed := by
  induction rest generalizing first with
  | nil => simp
  | cons t rest ih =>
    rw [List.foldl_cons, ih]
    simp [State.meet, or_assoc]

theorem mem_foldl_meet_mustFreed {first : State} {rest : List State} {aid : Site} :
    aid ∈ (rest.foldl State.meet first).mustFreed ↔ ∀ t ∈ first :: rest, aid ∈ t.mustFreed := by
  induction rest generalizing first with
  | nil => simp
  | cons t rest ih =>
    rw [List.foldl_cons, ih]
    simp [State.meet, and_assoc]

variable {cfg : Cfg} {s : Solution} {c p : ℕ}

theorem visited_of_base (hp : cfg.base s c = some p) : s.visited p = true :=
  List.find?_some hp

theorem mem_preds_of_base (hp : cfg.base s c = some p) : p ∈ cfg.preds c :=
  List.mem_of_find?_eq_some hp

theorem join_of_base_eq_none (h : cfg.base s c = none) : cfg.join s c = {} := by
  rw [Cfg.base, ← List.head?_filter, List.head?_eq_none_iff] at h
  rw [Cfg.join, h]
  rfl

/-- The join goes through the processed predecessors, from the base on. -/
theorem exists_join_eq (hp : cfg.base s c = some p) : ∃ rest : List ℕ,
    cfg.join s c = (rest.map s.out).foldl State.meet (s.out p) ∧
      ∀ q, q ∈ p :: rest ↔ q ∈ cfg.preds c ∧ s.visited q = true := by
  rw [Cfg.base, ← List.head?_filter, List.head?_eq_some_iff] at hp
  obtain ⟨rest, hrest⟩ := hp
  refine ⟨rest, ?_, fun q => ?_⟩
  · rw [Cfg.join, hrest]
    rfl
  · rw [← hrest, List.mem_filter]

theorem getElem?_join (hp : cfg.base s c = some p) (x : Var) :
    (cfg.join s c).points[x]? = (s.out p).points[x]?.map fun v =>
      if ∀ q ∈ cfg.preds c, s.visited q = true → (s.out q).points[x]? = some v then v
      else none := by
  obtain ⟨rest, hjoin, hmem⟩ := exists_join_eq hp
  rw [hjoin, getElem?_foldl_meet]
  refine Option.map_congr fun v hv => if_congr ?_ rfl rfl
  rw [List.forall_mem_map]
  constructor
  · intro h q hq hvisited
    obtain rfl | hq := List.mem_cons.mp ((hmem q).mpr ⟨hq, hvisited⟩)
    · exact hv
    · exact h q hq
  · intro h q hq
    obtain ⟨hq, hvisited⟩ := (hmem q).mp (List.mem_cons_of_mem _ hq)
    exact h q hq hvisited

theorem mem_join_mayFreed {aid : Site} : aid ∈ (cfg.join s c).mayFreed ↔
    ∃ q ∈ cfg.preds c, s.visited q = true ∧ aid ∈ (s.out q).mayFreed := by
  cases hbase : cfg.base s c with
  | none =>
    rw [join_of_base_eq_none hbase]
    rw [Cfg.base, List.find?_eq_none] at hbase
    simp only [Finset.notMem_empty, false_iff]
    rintro ⟨q, hq, hvisited, -⟩
    exact hbase q hq hvisited
  | some p =>
    obtain ⟨rest, hjoin, hmem⟩ := exists_join_eq hbase
    rw [hjoin, mem_foldl_meet_mayFreed, ← List.map_cons]
    constructor
    · rintro ⟨t, ht, haid⟩
      obtain ⟨q, hq, rfl⟩ := List.mem_map.mp ht
      obtain ⟨hpred, hvisited⟩ := (hmem q).mp hq
      exact ⟨q, hpred, hvisited, haid⟩
    · rintro ⟨q, hpred, hvisited, haid⟩
      exact ⟨s.out q, List.mem_map_of_mem ((hmem q).mpr ⟨hpred, hvisited⟩), haid⟩

theorem mem_join_mustFreed (hp : cfg.base s c = some p) {aid : Site} :
    aid ∈ (cfg.join s c).mustFreed ↔
      ∀ q ∈ cfg.preds c, s.visited q = true → aid ∈ (s.out q).mustFreed := by
  obtain ⟨rest, hjoin, hmem⟩ := exists_join_eq hp
  rw [hjoin, mem_foldl_meet_mustFreed, ← List.map_cons, List.forall_mem_map]
  simp only [hmem, and_imp]

/-- A join only moves on when the facts of the predecessors do, the base keeps its entries, and
none of the other predecessors gets the known site of the base for a variable without an entry. -/
theorem join_below_of_base {s' : Solution} {p' : ℕ} (hp : cfg.base s c = some p)
    (hp' : cfg.base s' c = some p')
    (hvisited : ∀ q ∈ cfg.preds c, s.visited q = true → s'.visited q = true)
    (hbelow : ∀ q ∈ cfg.preds c, s.visited q = true → (s.out q).Below (s'.out q))
    (hkept : ∀ x : Var, (s.out p).points[x]? ≠ none → (s'.out p').points[x]? ≠ none)
    (hgained : ∀ q ∈ cfg.preds c, s.visited q = true → ∀ (x : Var) (aid : Site),
      (s.out p).points[x]? = some (some aid) → (s.out q).points[x]? = none →
      (s'.out q).points[x]? ≠ some (some aid)) :
    (cfg.join s c).Below (cfg.join s' c) where
  points x := by
    rw [getElem?_join hp, getElem?_join hp']
    cases hv : (s.out p).points[x]? with
    | none => exact .absent _
    | some v =>
      obtain ⟨v', hv'⟩ := Option.ne_none_iff_exists'.mp (hkept x (by simp [hv]))
      rw [hv', Option.map_some, Option.map_some]
      by_cases hnow : ∃ aid : Site, v' = some aid ∧
          ∀ q ∈ cfg.preds c, s'.visited q = true → (s'.out q).points[x]? = some v'
      case neg =>
        have hunknown : (if ∀ q ∈ cfg.preds c, s'.visited q = true →
            (s'.out q).points[x]? = some v' then v' else none) = none := by
          split
          case isTrue hall => exact Option.eq_none_iff_forall_ne_some.mpr fun aid h => hnow ⟨aid, h, hall⟩
          case isFalse => rfl
        rw [hunknown]
        exact .known _
      case pos =>
        -- The site is known of every predecessor now, so it was known of each of them before.
        obtain ⟨aid, rfl, hall⟩ := hnow
        have hbefore (q : ℕ) (hq : q ∈ cfg.preds c) (hvisitedq : s.visited q = true) :
            (s.out q).points[x]? = none ∨ (s.out q).points[x]? = some (some aid) := by
          have hfade := (hbelow q hq hvisitedq).points x
          rw [hall q hq (hvisited q hq hvisitedq)] at hfade
          exact hfade.of_known
        have hbase := (hbefore p (mem_preds_of_base hp) (visited_of_base hp)).resolve_left (by simp [hv])
        obtain rfl : v = some aid := Option.some.inj (hv.symm.trans hbase)
        have hthen : ∀ q ∈ cfg.preds c, s.visited q = true →
            (s.out q).points[x]? = some (some aid) := fun q hq hvisitedq =>
          (hbefore q hq hvisitedq).resolve_left fun hnone =>
            hgained q hq hvisitedq x aid hbase hnone (hall q hq (hvisited q hq hvisitedq))
        rw [if_pos hthen, if_pos hall]
        exact .refl _
  mayFreed := by
    intro aid haid
    obtain ⟨q, hq, hvisitedq, haid⟩ := mem_join_mayFreed.mp haid
    exact mem_join_mayFreed.mpr
      ⟨q, hq, hvisited q hq hvisitedq, (hbelow q hq hvisitedq).mayFreed haid⟩
  mustFreed := by
    intro aid haid
    rw [mem_join_mustFreed hp'] at haid
    rw [mem_join_mustFreed hp]
    exact fun q hq hvisitedq =>
      (hbelow q hq hvisitedq).mustFreed (haid q hq (hvisited q hq hvisitedq))

end Join

/-! ### Turns that take no fact back -/

/-- The facts `b` leaves to its successors when it is processed. -/
def Cfg.leave (cfg : Cfg) (b : ℕ) (s : Solution) : State :=
  (cfg.transfer false b { state := cfg.join s b }).state

/-- Processing `b` takes no fact back. When `b` was processed before, its releases free the sites
they freed then, and a variable without an entry does not get the known site that the base of a
successor has for it. When `b` is processed for the first time and becomes the base of a successor
that was processed already, no site must be freed if that had no base, and every variable with an
entry in the old base has one now. -/
structure Cfg.Steady (cfg : Cfg) (b : ℕ) (s : Solution) : Prop where
  freed : s.visited b = true →
    (s.inn b).freed (cfg.effects b) = (cfg.join s b).freed (cfg.effects b)
  gained : s.visited b = true → ∀ c ∈ cfg.succs b, s.visited c = true →
    ∀ p, cfg.base s c = some p → ∀ (x : Var) (aid : Site),
      (s.out p).points[x]? = some (some aid) → (s.out b).points[x]? = none →
      (cfg.leave b s).points[x]? ≠ some (some aid)
  first : s.visited b = false → ∀ c ∈ cfg.succs b, s.visited c = true ∨ c = b →
    cfg.base s c = none → (cfg.leave b s).mustFreed = ∅
  replaced : s.visited b = false → ∀ c ∈ cfg.succs b, s.visited c = true ∨ c = b →
    cfg.base (cfg.process b s).1 c = some b → ∀ p, cfg.base s c = some p →
      ∀ x : Var, (s.out p).points[x]? ≠ none → (cfg.leave b s).points[x]? ≠ none

section Turn

variable {cfg : Cfg} {s : Solution} {b c : ℕ}

theorem leave_eq : cfg.leave b s = (cfg.effects b).foldl State.apply (cfg.join s b) :=
  transfer_state cfg b _

theorem process_changed :
    (cfg.process b s).2 = true ↔ s.visited b = false ∨ cfg.leave b s ≠ s.out b := by
  rw [Cfg.process, Cfg.leave]
  split
  · rename_i h
    simpa using h
  · rename_i h
    simpa using h

/-- A turn enters what it joins and leaves, also where that is what is there. -/
theorem process_eq : (cfg.process b s).1 =
    { inn := Function.update s.inn b (cfg.join s b)
      out := Function.update s.out b (cfg.leave b s)
      visited := Function.update s.visited b true } := by
  rw [Cfg.process, Cfg.leave]
  split
  · rfl
  · rename_i h
    rw [not_or, not_not, Bool.not_eq_true', Bool.not_eq_false] at h
    obtain ⟨hvisited, hout⟩ := h
    rw [hout, ← hvisited, Function.update_eq_self, Function.update_eq_self]

theorem visited_process (q : ℕ) :
    (cfg.process b s).1.visited q = true ↔ s.visited q = true ∨ q = b := by
  simp only [process_eq, Function.update_apply]
  split
  · rename_i h
    simp [h]
  · rename_i h
    simp [h]

theorem visited_process_of_ne {q : ℕ} (h : q ≠ b) :
    (cfg.process b s).1.visited q = s.visited q := by
  rw [Bool.eq_iff_iff, visited_process]
  simp [h]

theorem out_process_self : (cfg.process b s).1.out b = cfg.leave b s := by
  rw [process_eq]
  exact Function.update_self ..

theorem out_process_of_ne {q : ℕ} (h : q ≠ b) : (cfg.process b s).1.out q = s.out q := by
  rw [process_eq]
  exact Function.update_of_ne h ..

theorem base_process_of_visited (hb : s.visited b = true) :
    cfg.base (cfg.process b s).1 c = cfg.base s c := by
  have hsame : (cfg.process b s).1.visited = s.visited := by
    funext q
    rw [Bool.eq_iff_iff, visited_process]
    exact ⟨fun h => h.elim id fun h => h ▸ hb, .inl⟩
  rw [Cfg.base, Cfg.base, hsame]

/-- A base that is not the processed block was the base before. -/
theorem base_of_process_ne {p : ℕ} (h : cfg.base (cfg.process b s).1 c = some p) (hne : p ≠ b) :
    cfg.base s c = some p := by
  rw [Cfg.base, List.find?_eq_some_iff_append] at h ⊢
  obtain ⟨hp, before, behind, hpreds, hbefore⟩ := h
  refine ⟨((visited_process p).mp hp).resolve_right hne, before, behind, hpreds, fun q hq => ?_⟩
  have hq := hbefore q hq
  rw [Bool.not_eq_true', Bool.eq_false_iff] at hq ⊢
  exact fun hvisited => hq ((visited_process q).mpr (.inl hvisited))

/-- A join only moves on when a predecessor is processed. -/
theorem join_below (hsteady : cfg.Steady b s)
    (hout : s.visited b = true → (s.out b).Below (cfg.leave b s))
    (hc : s.visited c = true ∨ c = b) :
    (cfg.join s c).Below (cfg.join (cfg.process b s).1 c) := by
  have hvisited (q : ℕ) (hq : s.visited q = true) : (cfg.process b s).1.visited q = true :=
    (visited_process q).mpr (.inl hq)
  have hbelow (q : ℕ) (hq : s.visited q = true) :
      (s.out q).Below ((cfg.process b s).1.out q) := by
    obtain rfl | hne := eq_or_ne q b
    · rw [out_process_self]
      exact hout hq
    · rw [out_process_of_ne hne]
      exact .refl _
  by_cases hpred : b ∈ cfg.preds c
  case neg =>
    have hjoin : cfg.join (cfg.process b s).1 c = cfg.join s c := join_congr fun q hq => by
      have hne : q ≠ b := fun h => hpred (h ▸ hq)
      exact ⟨visited_process_of_ne hne, out_process_of_ne hne⟩
    rw [hjoin]
    exact .refl _
  case pos =>
    have hsucc : c ∈ cfg.succs b := (cfg.mem_preds b c).mp hpred
    have hb : (cfg.process b s).1.visited b = true := (visited_process b).mpr (.inr rfl)
    obtain ⟨p, hp⟩ : ∃ p, cfg.base (cfg.process b s).1 c = some p :=
      Option.ne_none_iff_exists'.mp fun h => List.find?_eq_none.mp h b hpred hb
    cases hvisitedb : s.visited b with
    | true =>
      have hbase : cfg.base s c = some p := (base_process_of_visited hvisitedb).symm.trans hp
      have hcvisited : s.visited c = true := hc.elim id fun h => h ▸ hvisitedb
      refine join_below_of_base hbase hp (fun q _ => hvisited q) (fun q _ => hbelow q) ?_ ?_
      · exact fun x => ((hbelow p (visited_of_base hbase)).points x).ne_none
      · intro q _ _ x aid hx hnone
        obtain rfl | hne := eq_or_ne q b
        · rw [out_process_self]
          exact hsteady.gained hvisitedb c hsucc hcvisited p hbase x aid hx hnone
        · rw [out_process_of_ne hne, hnone]
          exact nofun
    | false =>
      cases hbase : cfg.base s c with
      | none =>
        rw [join_of_base_eq_none hbase]
        refine ⟨fun x => ?_, Finset.empty_subset _, fun aid haid => ?_⟩
        · rw [Std.ExtTreeMap.getElem?_empty]
          exact .absent _
        · have hleave := (mem_join_mustFreed hp).mp haid b hpred hb
          rwa [out_process_self, hsteady.first hvisitedb c hsucc hc hbase] at hleave
      | some p₀ =>
        have hne (q : ℕ) (hq : s.visited q = true) : q ≠ b := by
          rintro rfl
          rw [hvisitedb] at hq
          cases hq
        refine join_below_of_base hbase hp (fun q _ => hvisited q) (fun q _ => hbelow q) ?_ ?_
        · intro x hx
          obtain rfl | hpb := eq_or_ne p b
          · rw [out_process_self]
            exact hsteady.replaced hvisitedb c hsucc hc hp p₀ hbase x hx
          · obtain rfl : p = p₀ :=
              Option.some.inj ((base_of_process_ne hp hpb).symm.trans hbase)
            exact ((hbelow p (visited_of_base hbase)).points x).ne_none hx
        · intro q _ hqvisited x aid _ hnone
          rw [out_process_of_ne (hne q hqvisited), hnone]
          exact nofun

/-- A block that is processed again in a steady turn leaves facts that have moved on. -/
theorem out_below_leave (hsteady : cfg.Steady b s) (hb : s.visited b = true)
    (hinn : (s.inn b).Below (cfg.join s b))
    (hout : s.out b = (cfg.effects b).foldl State.apply (s.inn b)) :
    (s.out b).Below (cfg.leave b s) := by
  rw [hout, leave_eq]
  exact hinn.foldl_apply (hsteady.freed hb)

end Turn

/-! ### The entries there are -/

/-- The variable that an effect assigns. -/
def Effect.target : Effect → Option Var
  | .acquire x _ _ => some x
  | .copy x _ => some x
  | _ => none

/-- The site that an effect acquires. -/
def Effect.site : Effect → Option Site
  | .acquire _ site _ => some site
  | _ => none

namespace Cfg

variable (cfg : Cfg)

/-- All effects of the statements. -/
def allEffects : List Effect := (List.range cfg.size).flatMap cfg.effects

/-- The variables that are assigned. -/
def vars : Finset Var := (cfg.allEffects.filterMap Effect.target).toFinset

/-- The sites that are acquired. -/
def sites : Finset Site := (cfg.allEffects.filterMap Effect.site).toFinset

end Cfg

/-- Only these variables have an entry, and the facts are about these sites only. -/
structure State.Within (vars : Finset Var) (sites : Finset Site) (s : State) : Prop where
  points : ∀ (x : Var) (v : Option Site), s.points[x]? = some v →
    x ∈ vars ∧ ∀ aid ∈ v, aid ∈ sites
  mayFreed : s.mayFreed ⊆ sites
  mustFreed : s.mustFreed ⊆ sites

namespace State.Within

variable {vars : Finset Var} {sites : Finset Site} {s : State}

theorem empty : State.Within vars sites {} where
  points x v h := by simp at h
  mayFreed := Finset.empty_subset _
  mustFreed := Finset.empty_subset _

theorem apply (h : s.Within vars sites) {eff : Effect} (htarget : ∀ x ∈ eff.target, x ∈ vars)
    (hsite : ∀ aid ∈ eff.site, aid ∈ sites) : (s.apply eff).Within vars sites := by
  cases eff with
  | acquire x site released =>
    refine ⟨fun z v hz => ?_, (Finset.erase_subset _ _).trans h.mayFreed,
      (Finset.erase_subset _ _).trans h.mustFreed⟩
    rw [State.apply, getElem?_acquire] at hz
    split at hz
    · rename_i hzx
      obtain rfl := Option.some.inj hz
      subst hzx
      refine ⟨htarget z rfl, fun aid haid => ?_⟩
      obtain rfl := Option.some.inj haid
      exact hsite _ rfl
    · exact h.points z v hz
  | copy x y =>
    refine ⟨fun z v hz => ?_, h.mayFreed, h.mustFreed⟩
    rw [State.apply, getElem?_alias] at hz
    split at hz
    · rename_i hzx
      subst hzx
      exact ⟨htarget z rfl, (h.points y v hz).2⟩
    · exact h.points z v hz
  | release x =>
    rw [apply_release]
    cases hx : s.points[x]?.join with
    | none => exact h
    | some aid =>
      rw [Option.join_eq_some_iff] at hx
      have haid : aid ∈ sites := (h.points x _ hx).2 aid rfl
      exact ⟨h.points, Finset.insert_subset haid h.mayFreed,
        Finset.insert_subset haid h.mustFreed⟩
  | reassign x => exact h
  | nothing => exact h

theorem foldl_apply (h : s.Within vars sites) {effs : List Effect}
    (htarget : ∀ eff ∈ effs, ∀ x ∈ eff.target, x ∈ vars)
    (hsite : ∀ eff ∈ effs, ∀ aid ∈ eff.site, aid ∈ sites) :
    (effs.foldl State.apply s).Within vars sites := by
  induction effs generalizing s with
  | nil => exact h
  | cons eff effs ih =>
    exact ih (h.apply (htarget eff List.mem_cons_self) (hsite eff List.mem_cons_self))
      (fun eff he => htarget eff (List.mem_cons_of_mem _ he))
      (fun eff he => hsite eff (List.mem_cons_of_mem _ he))

theorem join {cfg : Cfg} {s : Solution} (h : ∀ q, (s.out q).Within vars sites) (c : ℕ) :
    (cfg.join s c).Within vars sites := by
  cases hp : cfg.base s c with
  | none =>
    rw [join_of_base_eq_none hp]
    exact .empty
  | some p =>
    refine ⟨fun x v hx => ?_, fun aid haid => ?_, fun aid haid => ?_⟩
    · rw [getElem?_join hp, Option.map_eq_some_iff] at hx
      obtain ⟨u, hu, rfl⟩ := hx
      obtain ⟨hxvars, hsites⟩ := (h p).points x u hu
      refine ⟨hxvars, ?_⟩
      split
      · exact hsites
      · exact nofun
    · obtain ⟨q, -, -, haid⟩ := mem_join_mayFreed.mp haid
      exact (h q).mayFreed haid
    · rw [mem_join_mustFreed hp] at haid
      exact (h p).mustFreed (haid p (mem_preds_of_base hp) (visited_of_base hp))

end State.Within

/-! ### The rank of a solution -/

/-- How far an entry has moved. -/
def level : Option (Option Site) → ℕ
  | none => 0
  | some (some _) => 1
  | some none => 2

theorem level_le (v : Option (Option Site)) : level v ≤ 2 := by
  rcases v with _ | _ | aid
  all_goals simp [level]

theorem Fades.level_lt {u v : Option (Option Site)} (h : Fades u v) (hne : u ≠ v) :
    level u < level v ∧ v.isSome := by
  cases h with
  | absent =>
    rcases v with _ | _ | aid
    · exact absurd rfl hne
    · exact ⟨by simp [level], rfl⟩
    · exact ⟨by simp [level], rfl⟩
  | known v =>
    cases v with
    | none => exact absurd rfl hne
    | some aid => exact ⟨by simp [level], rfl⟩
  | refl => exact absurd rfl hne

theorem Fades.level_le {u v : Option (Option Site)} (h : Fades u v) : level u ≤ level v := by
  by_cases hne : u = v
  · rw [hne]
  · exact (h.level_lt hne).1.le

/-- How far the facts have moved. -/
def State.height (vars : Finset Var) (sites : Finset Site) (s : State) : ℕ :=
  ∑ x ∈ vars, level s.points[x]? + s.mayFreed.card + (sites.card - s.mustFreed.card)

theorem State.Within.height_le {vars : Finset Var} {sites : Finset Site} {s : State}
    (h : s.Within vars sites) : s.height vars sites ≤ 2 * vars.card + 2 * sites.card := by
  have hpoints := Finset.sum_le_card_nsmul vars (fun x => level s.points[x]?) 2 fun x _ => level_le _
  have hmay := Finset.card_le_card h.mayFreed
  rw [smul_eq_mul] at hpoints
  rw [State.height]
  omega

/-- Facts that have moved on are higher. -/
theorem State.Below.height_lt {vars : Finset Var} {sites : Finset Site} {s t : State}
    (h : s.Below t) (hs : s.Within vars sites) (ht : t.Within vars sites) (hne : s ≠ t) :
    s.height vars sites < t.height vars sites := by
  have hpoints : ∑ x ∈ vars, level s.points[x]? ≤ ∑ x ∈ vars, level t.points[x]? :=
    Finset.sum_le_sum fun x _ => (h.points x).level_le
  have hmay := Finset.card_le_card h.mayFreed
  have hmust := Finset.card_le_card h.mustFreed
  have hsites := Finset.card_le_card hs.mustFreed
  rw [State.height, State.height]
  by_cases hx : ∃ x : Var, s.points[x]? ≠ t.points[x]?
  · obtain ⟨x, hx⟩ := hx
    obtain ⟨hlt, hsome⟩ := (h.points x).level_lt hx
    obtain ⟨v, hv⟩ := Option.isSome_iff_exists.mp hsome
    have hsum : ∑ x ∈ vars, level s.points[x]? < ∑ x ∈ vars, level t.points[x]? :=
      Finset.sum_lt_sum (fun y _ => (h.points y).level_le) ⟨x, (ht.points x v hv).1, hlt⟩
    omega
  · push Not at hx
    have hpts : s.points = t.points := Std.ExtTreeMap.ext_getElem? hx
    by_cases hmayeq : s.mayFreed = t.mayFreed
    · have hmustne : t.mustFreed ≠ s.mustFreed := by
        intro hmusteq
        cases s
        cases t
        exact hne (by simp_all)
      have hlt := Finset.card_lt_card (h.mustFreed.ssubset_of_ne hmustne)
      omega
    · have hlt := Finset.card_lt_card (h.mayFreed.ssubset_of_ne hmayeq)
      omega

/-- The number of processed blocks, and how far the facts they leave have moved. -/
def Cfg.rank (cfg : Cfg) (s : Solution) : ℕ :=
  ∑ b ∈ Finset.range cfg.size,
    if s.visited b then 1 + (s.out b).height cfg.vars cfg.sites else 0

/-! ### Runs that take no fact back -/

/-- A run of the worklist loop has come to this queue and this solution. -/
abbrev Cfg.Runs (cfg : Cfg) (work : List ℕ) (s : Solution) : Prop :=
  Turns cfg.succs cfg.process (List.range cfg.size) {} work s

/-- What holds in a run whose turns are steady. -/
structure Inv (cfg : Cfg) (work : List ℕ) (s : Solution) : Prop where
  lt : ∀ b ∈ work, b < cfg.size
  inn : ∀ b, s.visited b = true → (s.inn b).Below (cfg.join s b)
  out : ∀ b, s.visited b = true → s.out b = (cfg.effects b).foldl State.apply (s.inn b)
  within : ∀ b, (s.out b).Within cfg.vars cfg.sites

section Run

variable {cfg : Cfg} {s : Solution} {b : ℕ} {work : List ℕ}

theorem inv_start : Inv cfg (List.range cfg.size) {} where
  lt b hb := List.mem_range.mp hb
  inn b hb := by cases hb
  out b hb := by cases hb
  within b := .empty

theorem leave_within (hb : b < cfg.size) (hs : ∀ q, (s.out q).Within cfg.vars cfg.sites) :
    (cfg.leave b s).Within cfg.vars cfg.sites := by
  have hmem : ∀ eff ∈ cfg.effects b, eff ∈ cfg.allEffects := fun eff heff =>
    List.mem_flatMap.mpr ⟨b, List.mem_range.mpr hb, heff⟩
  rw [leave_eq]
  refine (State.Within.join hs b).foldl_apply (fun eff heff x hx => ?_) (fun eff heff aid haid => ?_)
  · exact List.mem_toFinset.mpr (List.mem_filterMap.mpr ⟨eff, hmem eff heff, hx⟩)
  · exact List.mem_toFinset.mpr (List.mem_filterMap.mpr ⟨eff, hmem eff heff, haid⟩)

theorem Inv.turn (h : Inv cfg (b :: work) s) (hsteady : cfg.Steady b s) :
    Inv cfg (if (cfg.process b s).2 then work ++ cfg.succs b else work) (cfg.process b s).1 := by
  have hb : b < cfg.size := h.lt b List.mem_cons_self
  have hout : s.visited b = true → (s.out b).Below (cfg.leave b s) := fun hvisited =>
    out_below_leave hsteady hvisited (h.inn b hvisited) (h.out b hvisited)
  refine ⟨fun c hc => ?_, fun c hc => ?_, fun c hc => ?_, fun c => ?_⟩
  · split at hc
    · obtain hc | hc := List.mem_append.mp hc
      · exact h.lt c (List.mem_cons_of_mem _ hc)
      · exact cfg.succs_lt b c hc
    · exact h.lt c (List.mem_cons_of_mem _ hc)
  · have hc := (visited_process c).mp hc
    have hjoin := join_below hsteady hout hc
    obtain rfl | hne := eq_or_ne c b
    · have hinn : (cfg.process c s).1.inn c = cfg.join s c := by
        rw [process_eq]
        exact Function.update_self ..
      rwa [hinn]
    · have hinn : (cfg.process b s).1.inn c = s.inn c := by
        rw [process_eq]
        exact Function.update_of_ne hne ..
      rw [hinn]
      exact (h.inn c (hc.resolve_right hne)).trans hjoin
  · obtain rfl | hne := eq_or_ne c b
    · rw [process_eq]
      simp only [Function.update_self]
      exact leave_eq
    · have hvisited := ((visited_process c).mp hc).resolve_right hne
      rw [process_eq]
      simp only [Function.update_of_ne hne]
      exact h.out c hvisited
  · obtain rfl | hne := eq_or_ne c b
    · rw [out_process_self]
      exact leave_within hb h.within
    · rw [out_process_of_ne hne]
      exact h.within c

/-- A turn that changes something raises the rank. -/
theorem Inv.rank_lt (h : Inv cfg (b :: work) s) (hsteady : cfg.Steady b s)
    (hchanged : (cfg.process b s).2 = true) : cfg.rank s < cfg.rank (cfg.process b s).1 := by
  have hb : b < cfg.size := h.lt b List.mem_cons_self
  have hvisited : (cfg.process b s).1.visited b = true := (visited_process b).mpr (.inr rfl)
  have hself : (if s.visited b then 1 + (s.out b).height cfg.vars cfg.sites else 0) <
      1 + (cfg.leave b s).height cfg.vars cfg.sites := by
    split
    case isTrue hv =>
      have hne : s.out b ≠ cfg.leave b s :=
        ((process_changed.mp hchanged).resolve_left (by simp [hv])).symm
      have hlt := (out_below_leave hsteady hv (h.inn b hv) (h.out b hv)).height_lt (h.within b)
        (leave_within hb h.within) hne
      omega
    case isFalse => omega
  refine Finset.sum_lt_sum (fun c _ => ?_) ⟨b, Finset.mem_range.mpr hb, ?_⟩
  · obtain rfl | hne := eq_or_ne c b
    · rw [hvisited, out_process_self]
      exact hself.le
    · rw [out_process_of_ne hne, visited_process_of_ne hne]
  · rw [hvisited, out_process_self]
    exact hself

/-- A turn that changes nothing keeps the rank. -/
theorem rank_process (hquiet : (cfg.process b s).2 = false) :
    cfg.rank (cfg.process b s).1 = cfg.rank s := by
  have hnot : ¬ (s.visited b = false ∨ cfg.leave b s ≠ s.out b) := by
    rw [← process_changed, hquiet]
    exact nofun
  rw [not_or, not_not, Bool.not_eq_false] at hnot
  obtain ⟨hvisited, hleave⟩ := hnot
  rw [process_eq, hleave, ← hvisited]
  simp only [Cfg.rank, Function.update_eq_self]

/-- In a run whose turns all take no fact back the joined facts of each block only move on, and the
worklist empties. -/
theorem runOnCFG_of_steady
    (hsteady : ∀ b work s, cfg.Runs (b :: work) s → cfg.Steady b s) :
    (∃ fuel reports, cfg.runOnCFG fuel = some reports) ∧
      ∀ b work s, cfg.Runs (b :: work) s → s.visited b = true →
        (s.inn b).Below (cfg.join s b) := by
  have hinv {work : List ℕ} {s : Solution} (h : cfg.Runs work s) : Inv cfg work s :=
    h.invariant inv_start fun b work s hrun hs => hs.turn (hsteady b work s hrun)
  obtain ⟨d, hd⟩ : ∃ d, ∀ b < cfg.size, (cfg.succs b).length ≤ d :=
    ⟨∑ b ∈ Finset.range cfg.size, (cfg.succs b).length, fun b hb =>
      Finset.single_le_sum (f := fun b => (cfg.succs b).length) (fun _ _ => Nat.zero_le _)
        (Finset.mem_range.mpr hb)⟩
  have hbounded (s : Solution) (hs : ∀ b, (s.out b).Within cfg.vars cfg.sites) :
      cfg.rank s ≤ cfg.size * (1 + (2 * cfg.vars.card + 2 * cfg.sites.card)) := by
    have hsum := Finset.sum_le_card_nsmul (Finset.range cfg.size)
      (fun b => if s.visited b then 1 + (s.out b).height cfg.vars cfg.sites else 0)
      (1 + (2 * cfg.vars.card + 2 * cfg.sites.card)) fun b _ => by
        have hb := (hs b).height_le
        split
        · omega
        · omega
    rwa [Finset.card_range, smul_eq_mul] at hsum
  constructor
  · obtain ⟨fuel, t, hsolve⟩ : ∃ fuel t,
        solve cfg.succs cfg.process fuel (List.range cfg.size) {} = some t := by
      obtain ⟨t, hsolve, -⟩ := Turns.exists_solve
        (fun b work s h => hd b ((hinv h).lt b List.mem_cons_self))
        (fun work s h => hbounded s (hinv h).within)
        (fun b work s h hchanged => (hinv h).rank_lt (hsteady b work s h) hchanged)
        (fun b work s _ hquiet => rank_process hquiet) .start le_rfl
      exact ⟨_, t, hsolve⟩
    refine ⟨fuel, cfg.reports t, ?_⟩
    rw [Cfg.runOnCFG, hsolve]
    rfl
  · exact fun b work s h hvisited => (hinv h).inn b hvisited

end Run

/-- The CFG of `mut p = malloc(n);` and a block that frees `p` and goes back to itself. -/
def freedInLoop : Cfg where
  size := 2
  statements b := if b = 0 then [.varDecl 0 (mallocCall 1)] else if b = 1 then [freeCall 2 0] else []
  succs b := if b = 0 then [1] else if b = 1 then [1] else []
  preds c := if c = 1 then [0, 1] else []
  mem_preds b c := by
    split_ifs
    all_goals simp_all
  succs_lt b c hc := by
    split_ifs at hc
    all_goals simp_all
  entry_preds := rfl
  once b c i j e f site he hf hacq hacq' := by
    have hfirst : ∀ (b i : ℕ) (e : Expr),
        (if b = 0 then [.varDecl 0 (mallocCall 1)] else if b = 1 then [freeCall 2 0] else [])[i]? =
          some e → e.acquired = some site → b = 0 ∧ i = 0 := by
      intro b i e he hacq
      split_ifs at he
      all_goals rcases i with _ | i
      all_goals simp at he
      all_goals subst he
      all_goals simp_all [Expr.acquired, freeCall]
    obtain ⟨rfl, rfl⟩ := hfirst b i e he hacq
    obtain ⟨rfl, rfl⟩ := hfirst c j f hf hacq'
    exact ⟨rfl, rfl⟩

/-- The solutions of its run: the first turn is for block 0, and all others are for block 1. -/
def freedInLoopRun : ℕ → Solution
  | 0 => {}
  | 1 => (freedInLoop.process 0 {}).1
  | n + 2 => (freedInLoop.process 1 (freedInLoopRun (n + 1))).1

/-- The turns of the run: the first two enter facts, and two more change nothing. -/
theorem freedInLoop_cases {work : List ℕ} {s : Solution} (h : freedInLoop.Runs work s) :
    (work = [0, 1] ∧ s = freedInLoopRun 0) ∨ (work = [1, 1] ∧ s = freedInLoopRun 1) ∨
      (work = [1, 1] ∧ s = freedInLoopRun 2) ∨ (work = [1] ∧ s = freedInLoopRun 3) ∨
      work = [] := by
  have h₀ : (freedInLoop.process 0 (freedInLoopRun 0)).2 = true := by decide
  have h₁ : (freedInLoop.process 1 (freedInLoopRun 1)).2 = true := by decide
  have h₂ : (freedInLoop.process 1 (freedInLoopRun 2)).2 = false := by decide
  have h₃ : (freedInLoop.process 1 (freedInLoopRun 3)).2 = false := by decide
  induction h with
  | start => exact .inl ⟨rfl, rfl⟩
  | @turn b work s _ ih =>
    obtain ⟨hwork, rfl⟩ | ⟨hwork, rfl⟩ | ⟨hwork, rfl⟩ | ⟨hwork, rfl⟩ | hwork := ih
    · obtain ⟨rfl, rfl⟩ := List.cons.inj hwork
      rw [h₀, if_pos rfl]
      exact .inr (.inl ⟨rfl, rfl⟩)
    · obtain ⟨rfl, rfl⟩ := List.cons.inj hwork
      rw [h₁, if_pos rfl]
      exact .inr (.inr (.inl ⟨rfl, rfl⟩))
    · obtain ⟨rfl, rfl⟩ := List.cons.inj hwork
      rw [h₂, if_neg Bool.false_ne_true]
      exact .inr (.inr (.inr (.inl ⟨rfl, rfl⟩)))
    · obtain ⟨rfl, rfl⟩ := List.cons.inj hwork
      rw [h₃, if_neg Bool.false_ne_true]
      exact .inr (.inr (.inr (.inr rfl)))
    · cases hwork

/-- Both releases free the site of the declaration, and block 1 starts from the entries of
block 0. -/
theorem steady_freedInLoop {s : Solution} (hvisited : s.visited 1 = true)
    (hfreed : (s.inn 1).freed (freedInLoop.effects 1) =
      (freedInLoop.join s 1).freed (freedInLoop.effects 1))
    (hbase : freedInLoop.base s 1 = some 0) (hpoints : (s.out 0).points = (s.out 1).points) :
    freedInLoop.Steady 1 s where
  freed _ := hfreed
  gained _ c hc _ p hp x aid hx hnone := by
    obtain rfl : c = 1 := by simpa [freedInLoop] using hc
    obtain rfl : 0 = p := Option.some.inj (hbase.symm.trans hp)
    rw [hpoints, hnone] at hx
    cases hx
  first hb := by simp [hvisited] at hb
  replaced hb := by simp [hvisited] at hb

theorem runOnCFG_of_steady_freedInLoop :
    (∃ fuel reports, freedInLoop.runOnCFG fuel = some reports) ∧
      ∀ b work s, freedInLoop.Runs (b :: work) s → s.visited b = true →
        (s.inn b).Below (freedInLoop.join s b) := by
  refine runOnCFG_of_steady fun b work s hrun => ?_
  obtain ⟨hwork, rfl⟩ | ⟨hwork, rfl⟩ | ⟨hwork, rfl⟩ | ⟨hwork, rfl⟩ | hwork :=
    freedInLoop_cases hrun
  · obtain ⟨rfl, rfl⟩ := List.cons.inj hwork
    have hc : ∀ c ∈ freedInLoop.succs 0, ¬ ((freedInLoopRun 0).visited c = true ∨ c = 0) := by
      decide
    exact ⟨nofun, nofun, fun _ c hsucc h => absurd h (hc c hsucc),
      fun _ c hsucc h => absurd h (hc c hsucc)⟩
  · obtain ⟨rfl, rfl⟩ := List.cons.inj hwork
    have hbase : ∀ c ∈ freedInLoop.succs 1, freedInLoop.base (freedInLoopRun 1) c ≠ none := by
      decide
    have hafter : ∀ c ∈ freedInLoop.succs 1,
        freedInLoop.base (freedInLoop.process 1 (freedInLoopRun 1)).1 c ≠ some 1 := by decide
    exact ⟨nofun, nofun, fun _ c hsucc _ h => absurd h (hbase c hsucc),
      fun _ c hsucc _ h => absurd h (hafter c hsucc)⟩
  · obtain ⟨rfl, rfl⟩ := List.cons.inj hwork
    exact steady_freedInLoop (by decide) (by decide) (by decide) (by decide)
  · obtain ⟨rfl, rfl⟩ := List.cons.inj hwork
    exact steady_freedInLoop (by decide) (by decide) (by decide) (by decide)
  · cases hwork

end TurfLang.Alias
