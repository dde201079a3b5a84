import TurfLang.Analysis.Constants

/-!
# Constant propagation converges

Maps are compared entry by entry: no entry is below any, and an unknown value below every value.
All steps are monotone in this order, so from empty maps on the maps only climb, and each variable
of each block can do so twice.
-/

namespace TurfLang.ValueRange

/-! ### The order of the entries -/

/-- No entry is below any, and an unknown value below every value. -/
inductive Climb : Option (Option ℤ) → Option (Option ℤ) → Prop
  | absent (v : Option (Option ℤ)) : Climb none v
  | unknown (v : Option ℤ) : Climb (some none) (some v)
  | refl (v : Option (Option ℤ)) : Climb v v

/-- One map is below another at every variable. -/
def Below (m m' : ConstMap) : Prop := ∀ x : Var, Climb m[x]? m'[x]?

theorem Climb.trans {u v w : Option (Option ℤ)} (h : Climb u v) (h' : Climb v w) : Climb u w := by
  cases h with
  | absent => exact .absent w
  | unknown v =>
    cases h' with
    | unknown w => exact .unknown w
    | refl => exact .unknown v
  | refl => exact h'

theorem Below.refl (m : ConstMap) : Below m m := fun _ => .refl _

theorem Below.trans {m m' m'' : ConstMap} (h : Below m m') (h' : Below m' m'') : Below m m'' :=
  fun x => (h x).trans (h' x)

theorem Climb.const {v : Option (Option ℤ)} {c : ℤ} (h : Climb (some (some c)) v) :
    v = some (some c) := by
  cases h
  rfl

/-- How far an entry has climbed. -/
def level : Option (Option ℤ) → ℕ
  | none => 0
  | some none => 1
  | some (some _) => 2

theorem level_le (v : Option (Option ℤ)) : level v ≤ 2 := by
  rcases v with _ | _ | c <;> simp [level]

theorem Climb.level_lt {u v : Option (Option ℤ)} (h : Climb u v) (hne : u ≠ v) :
    level u < level v ∧ v.isSome := by
  cases h with
  | absent =>
    rcases v with _ | _ | c
    · exact absurd rfl hne
    · exact ⟨by simp [level], rfl⟩
    · exact ⟨by simp [level], rfl⟩
  | unknown v =>
    cases v with
    | none => exact absurd rfl hne
    | some c => exact ⟨by simp [level], rfl⟩
  | refl => exact absurd rfl hne

theorem Climb.level_le {u v : Option (Option ℤ)} (h : Climb u v) : level u ≤ level v := by
  by_cases hne : u = v
  · rw [hne]
  · exact (h.level_lt hne).1.le

/-! ### Monotonicity -/

theorem evalConstExpr_var {m : ConstMap} {x : Var} {c : ℤ} :
    evalConstExpr m (.var (some x)) = some c ↔ m[x]? = some (some c) := by
  rw [evalConstExpr]
  cases m[x]? with
  | none => simp
  | some v => simp

theorem evalConstExpr_binary {m : ConstMap} {op : BinaryOp} {lhs rhs : Expr} {c : ℤ} :
    evalConstExpr m (.binary op lhs rhs) = some c ↔ ∃ l r, evalConstExpr m lhs = some l ∧
      evalConstExpr m rhs = some r ∧ fold op l r = some c := by
  simp only [evalConstExpr, Option.bind_eq_bind, Option.bind_eq_some_iff]
  constructor
  · rintro ⟨l, hl, r, hr, h⟩
    exact ⟨l, r, hl, hr, h⟩
  · rintro ⟨l, r, hl, hr, h⟩
    exact ⟨l, hl, r, hr, h⟩

/-- A constant stays one when the map climbs. -/
theorem evalConstExpr_mono {m m' : ConstMap} (h : Below m m') :
    ∀ {e : Expr} {c : ℤ}, evalConstExpr m e = some c → evalConstExpr m' e = some c
  | .number _, _, he => he
  | .var none, _, he => he
  | .var (some x), c, he => by
    rw [evalConstExpr_var] at he ⊢
    exact (he ▸ h x).const
  | .binary op lhs rhs, c, he => by
    rw [evalConstExpr_binary] at he ⊢
    obtain ⟨l, r, hl, hr, hc⟩ := he
    exact ⟨l, r, evalConstExpr_mono h hl, evalConstExpr_mono h hr, hc⟩
  | .assignment _ rhs, c, he => evalConstExpr_mono (e := rhs) h he
  | .compoundAssignment _ _, _, he => by cases he
  | .postfixExpr _, _, he => by cases he
  | .varDecl _ _, _, he => by cases he
  | .other _, _, he => by cases he

theorem climb_evalConstExpr {m m' : ConstMap} (h : Below m m') (e : Expr) :
    Climb (some (evalConstExpr m e)) (some (evalConstExpr m' e)) := by
  cases he : evalConstExpr m e with
  | none => exact .unknown _
  | some c =>
    rw [evalConstExpr_mono h he]
    exact .refl _

variable {trackable : Finset Var}

theorem getElem?_set (cur : ConstMap) (s : Option Var) (v : Option ℤ) (x : Var) :
    (set trackable cur s v)[x]? = if s = some x ∧ x ∈ trackable then some v else cur[x]? := by
  cases s with
  | none => simp [set]
  | some y =>
    rw [set]
    by_cases hxy : y = x
    · subst hxy
      by_cases hy : y ∈ trackable
      · simp [hy]
      · simp [hy]
    · split_ifs with h1 h2 h2
      · exact absurd (Option.some.inj h2.1) hxy
      · simp [Std.ExtTreeMap.getElem?_insert, hxy]
      · exact absurd (Option.some.inj h2.1) hxy
      · rfl

theorem Below.set {m m' : ConstMap} (h : Below m m') (s : Option Var) {v v' : Option ℤ}
    (hv : Climb (some v) (some v')) :
    Below (set trackable m s v) (set trackable m' s v') := by
  intro x
  rw [getElem?_set, getElem?_set]
  split_ifs
  · exact hv
  · exact h x

theorem Below.applyTransfer {m m' : ConstMap} (h : Below m m') (stmt : Expr) :
    Below (applyTransfer trackable m stmt) (applyTransfer trackable m' stmt) := by
  cases stmt with
  | varDecl s initializer =>
    refine h.set s ?_
    cases initializer with
    | none => exact .refl _
    | some e => exact climb_evalConstExpr h e
  | assignment lhs rhs => exact h.set _ (climb_evalConstExpr h rhs)
  | compoundAssignment lhs rhs => exact h.set _ (.refl _)
  | postfixExpr operand => exact h.set _ (.refl _)
  | _ => exact h

theorem Below.transfer {cfg : CFG Expr} {m m' : ConstMap} (h : Below m m') (b : ℕ) :
    Below (transfer trackable cfg m b) (transfer trackable cfg m' b) := by
  rw [ValueRange.transfer, ValueRange.transfer]
  induction cfg.statements b generalizing m m' with
  | nil => exact h
  | cons stmt stmts ih => exact ih (h.applyTransfer stmt)

/-- What a join makes of an entry, given that of the other map. -/
def meetEntry (v : Option ℤ) (o : Option (Option ℤ)) : Option ℤ :=
  if v.isSome ∧ o = some v then v else none

theorem getElem?_meet (m o : ConstMap) (x : Var) :
    (meet m o)[x]? = m[x]?.map fun v => meetEntry v o[x]? := by
  rw [meet, Std.ExtTreeMap.getElem?_map]
  congr 1
  funext v
  rw [meetEntry]
  rcases o[x]? with _ | _ | c
  · simp
  · rcases v with _ | d <;> simp
  · rcases v with _ | d
    · simp
    · simp [eq_comm]

theorem Below.meet {m m' o o' : ConstMap} (h : Below m m') (ho : Below o o') :
    Below (meet m o) (meet m' o') := by
  intro x
  rw [getElem?_meet, getElem?_meet]
  have hx := h x
  have hox := ho x
  generalize m[x]? = u at hx ⊢
  generalize m'[x]? = u' at hx ⊢
  generalize o[x]? = w at hox ⊢
  generalize o'[x]? = w' at hox ⊢
  cases hx with
  | absent => exact .absent _
  | unknown v => exact .unknown _
  | refl =>
    rcases u with _ | _ | c
    · exact .absent _
    · exact .unknown _
    · by_cases hw : w = some (some c)
      · subst hw
        rw [hox.const]
        exact .refl _
      · have hnone : meetEntry (some c) w = none := if_neg fun hc => hw hc.2
        rw [Option.map_some, hnone]
        exact .unknown _

theorem Below.join {f f' : ℕ → ConstMap} : ∀ {ps : List ℕ}, (∀ p ∈ ps, Below (f p) (f' p)) →
    Below (join (ps.map f)) (join (ps.map f'))
  | [], _ => .refl _
  | p :: ps, h => by
    rw [List.map_cons, List.map_cons, ValueRange.join, ValueRange.join]
    have hp := h p List.mem_cons_self
    have hps : ∀ q ∈ ps, Below (f q) (f' q) := fun q hq => h q (List.mem_cons_of_mem _ hq)
    clear h
    generalize f p = m at hp ⊢
    generalize f' p = m' at hp ⊢
    induction ps generalizing m m' with
    | nil => exact hp
    | cons q ps ih =>
      exact ih (fun r hr => hps r (List.mem_cons_of_mem _ hr)) _ _
        (hp.meet (hps q List.mem_cons_self))

/-! ### The entries there are -/

/-- Only tracked variables have an entry. -/
def Tracks (trackable : Finset Var) (m : ConstMap) : Prop :=
  ∀ x : Var, m[x]?.isSome = true → x ∈ trackable

theorem tracks_empty : Tracks trackable ∅ := by
  intro x h
  simp at h

theorem Tracks.set {m : ConstMap} (h : Tracks trackable m) (s : Option Var) (v : Option ℤ) :
    Tracks trackable (set trackable m s v) := by
  intro x hx
  rw [getElem?_set] at hx
  split_ifs at hx with hs
  · exact hs.2
  · exact h x hx

theorem Tracks.applyTransfer {m : ConstMap} (h : Tracks trackable m) (stmt : Expr) :
    Tracks trackable (applyTransfer trackable m stmt) := by
  cases stmt with
  | varDecl s initializer => exact h.set s _
  | assignment lhs rhs => exact h.set _ _
  | compoundAssignment lhs rhs => exact h.set _ _
  | postfixExpr operand => exact h.set _ _
  | _ => exact h

theorem Tracks.foldl {m : ConstMap} (h : Tracks trackable m) (stmts : List Expr) :
    Tracks trackable (stmts.foldl (ValueRange.applyTransfer trackable) m) := by
  induction stmts generalizing m with
  | nil => exact h
  | cons stmt stmts ih => exact ih (h.applyTransfer stmt)

theorem Tracks.meet {m : ConstMap} (h : Tracks trackable m) (o : ConstMap) :
    Tracks trackable (meet m o) := by
  intro x hx
  rw [getElem?_meet, Option.isSome_map] at hx
  exact h x hx

theorem Tracks.join {f : ℕ → ConstMap} (h : ∀ p, Tracks trackable (f p)) (ps : List ℕ) :
    Tracks trackable (join (ps.map f)) := by
  cases ps with
  | nil => exact tracks_empty
  | cons p ps =>
    rw [List.map_cons, ValueRange.join]
    have hp := h p
    generalize f p = m at hp ⊢
    induction ps generalizing m with
    | nil => exact hp
    | cons q ps ih => exact ih _ (hp.meet (f q))

/-! ### The worklist -/

variable {cfg : CFG Expr}

variable (trackable cfg) in
/-- What holds after every turn: the maps only have to climb. -/
structure Inv (s : Facts) : Prop where
  climbs : ∀ b, Below (s.OUT b) (transfer trackable cfg (newIN cfg s b) b)
  tracks : ∀ b, Tracks trackable (s.OUT b)
  first : ∀ b, cfg.predecessors b = [] → s.IN b = ∅

theorem inv_init : Inv trackable cfg {} where
  climbs b x := by simpa using Climb.absent _
  tracks b := tracks_empty
  first b _ := rfl

/-- A turn: what the block's maps become, and whether that is a change. -/
theorem process_cases (trackable : Finset Var) (cfg : CFG Expr) (s : Facts) (b : ℕ) :
    (process trackable cfg b s).1.IN = Function.update s.IN b (newIN cfg s b) ∧
      (process trackable cfg b s).1.OUT =
        Function.update s.OUT b (transfer trackable cfg (newIN cfg s b) b) ∧
      ((process trackable cfg b s).2 = true ↔
        transfer trackable cfg (newIN cfg s b) b ≠ s.OUT b) := by
  unfold process
  dsimp only
  split_ifs with hne
  · exact ⟨rfl, rfl, by simpa using hne⟩
  · have heq := not_not.mp hne
    exact ⟨rfl, by rw [heq, Function.update_eq_self], by simp [heq]⟩

theorem newIN_of_ne {s : Facts} {b : ℕ} (h : cfg.predecessors b ≠ []) :
    newIN cfg s b = join ((cfg.predecessors b).map s.OUT) := if_neg h

theorem newIN_of_nil {s : Facts} {b : ℕ} (h : cfg.predecessors b = []) :
    newIN cfg s b = s.IN b := if_pos h

theorem Inv.below_out {s : Facts} (hs : Inv trackable cfg s) (b c : ℕ) :
    Below (s.OUT c) ((process trackable cfg b s).1.OUT c) := by
  rw [(process_cases trackable cfg s b).2.1]
  by_cases hc : c = b
  · subst hc
    rw [Function.update_self]
    exact hs.climbs c
  · rw [Function.update_of_ne hc]
    exact .refl _

theorem Inv.newIN_tracks {s : Facts} (hs : Inv trackable cfg s) (b : ℕ) :
    Tracks trackable (newIN cfg s b) := by
  by_cases hp : cfg.predecessors b = []
  · rw [newIN_of_nil hp, hs.first b hp]
    exact tracks_empty
  · rw [newIN_of_ne hp]
    exact Tracks.join hs.tracks _

theorem Inv.process {s : Facts} (hs : Inv trackable cfg s) (b : ℕ) :
    Inv trackable cfg (process trackable cfg b s).1 := by
  obtain ⟨hIN, hOUT, -⟩ := process_cases trackable cfg s b
  have hfirst : ∀ c, cfg.predecessors c = [] →
      (ValueRange.process trackable cfg b s).1.IN c = ∅ := by
    intro c hc
    rw [hIN]
    by_cases hcb : c = b
    · subst hcb
      rw [Function.update_self, newIN_of_nil hc, hs.first c hc]
    · rw [Function.update_of_ne hcb, hs.first c hc]
  have hnew : ∀ c, Below (newIN cfg s c) (newIN cfg (ValueRange.process trackable cfg b s).1 c) := by
    intro c
    by_cases hc : cfg.predecessors c = []
    · rw [newIN_of_nil hc, newIN_of_nil hc, hs.first c hc, hfirst c hc]
      exact .refl _
    · rw [newIN_of_ne hc, newIN_of_ne hc]
      exact Below.join fun p _ => hs.below_out b p
  refine ⟨fun c => ?_, fun c => ?_, hfirst⟩
  · have hclimb := (hs.climbs c).trans ((hnew c).transfer c)
    by_cases hcb : c = b
    · subst hcb
      rw [hOUT, Function.update_self]
      exact (hnew c).transfer c
    · rw [hOUT, Function.update_of_ne hcb]
      exact hclimb
  · rw [hOUT]
    by_cases hcb : c = b
    · subst hcb
      rw [Function.update_self]
      exact (hs.newIN_tracks c).foldl _
    · rw [Function.update_of_ne hcb]
      exact hs.tracks c

/-- The levels of all entries of a map. -/
def height (trackable : Finset Var) (m : ConstMap) : ℕ := ∑ x ∈ trackable, level m[x]?

theorem height_le (m : ConstMap) : height trackable m ≤ 2 * trackable.card := by
  have hsum := Finset.sum_le_card_nsmul trackable (fun x => level m[x]?) 2 fun x _ => level_le _
  rw [smul_eq_mul, Nat.mul_comm] at hsum
  exact hsum

theorem Below.height_lt {m m' : ConstMap} (h : Below m m') (hm : Tracks trackable m')
    (hne : m' ≠ m) : height trackable m < height trackable m' := by
  obtain ⟨x, hx⟩ : ∃ x : Var, m[x]? ≠ m'[x]? := by
    by_contra hall
    push Not at hall
    exact hne (Std.ExtTreeMap.ext_getElem? fun x => (hall x).symm)
  obtain ⟨hlt, hsome⟩ := (h x).level_lt hx
  exact Finset.sum_lt_sum (fun y _ => (h y).level_le) ⟨x, hm x hsome, hlt⟩

/-- The levels of all entries of the maps `OUT`. -/
def rank (trackable : Finset Var) (n : ℕ) (s : Facts) : ℕ :=
  ∑ b ∈ Finset.range n, height trackable (s.OUT b)

/-- A turn that changes something is one for a block of the graph. -/
theorem Inv.lt_of_changed {s : Facts} (hs : Inv trackable cfg s) {b : ℕ}
    (h : transfer trackable cfg (newIN cfg s b) b ≠ s.OUT b) : b < cfg.size := by
  by_contra hb
  have hnone : cfg.blocks[b]? = none := List.getElem?_eq_none (Nat.le_of_not_lt hb)
  have hpred : cfg.predecessors b = [] := by rw [CFG.predecessors, hnone]; rfl
  have hstmts : cfg.statements b = [] := by rw [CFG.statements, hnone]; rfl
  have htransfer : transfer trackable cfg (newIN cfg s b) b = ∅ := by
    rw [transfer, hstmts, List.foldl_nil, newIN_of_nil hpred, hs.first b hpred]
  refine h (htransfer.trans (Std.ExtTreeMap.ext_getElem? fun x => ?_))
  have hx := htransfer ▸ hs.climbs b x
  rw [Std.ExtTreeMap.getElem?_empty] at hx ⊢
  generalize (s.OUT b)[x]? = v at hx ⊢
  cases hx <;> rfl

theorem climbs : Dataflow.Climbs (process trackable cfg) (Inv trackable cfg)
    (rank trackable cfg.size) (cfg.size * (2 * trackable.card)) where
  keeps b s hs := hs.process b
  bounded s _ := by
    have hsum := Finset.sum_le_card_nsmul (Finset.range cfg.size)
      (fun b => height trackable (s.OUT b)) _ fun b _ => height_le _
    rwa [Finset.card_range, smul_eq_mul] at hsum
  rises b s hs hchanged := by
    obtain ⟨-, hOUT, hiff⟩ := process_cases trackable cfg s b
    have hne := hiff.mp hchanged
    have hlt : height trackable (s.OUT b) <
        height trackable ((process trackable cfg b s).1.OUT b) := by
      rw [hOUT, Function.update_self]
      exact (hs.climbs b).height_lt ((hs.newIN_tracks b).foldl _) hne
    refine Finset.sum_lt_sum (fun c _ => ?_) ⟨b, Finset.mem_range.mpr (hs.lt_of_changed hne), hlt⟩
    exact Finset.sum_le_sum fun x _ => (hs.below_out b c x).level_le
  holds b s _ hquiet := by
    obtain ⟨-, hOUT, hiff⟩ := process_cases trackable cfg s b
    have heq : transfer trackable cfg (newIN cfg s b) b = s.OUT b := by
      by_contra hne
      simp [hiff.mpr hne] at hquiet
    rw [rank, rank, hOUT, heq, Function.update_eq_self]

/-! ### Where the worklist ends -/

variable (trackable cfg) in
/-- A block whose maps a turn would not change. -/
structure Stable (b : ℕ) (s : Facts) : Prop where
  IN : s.IN b = newIN cfg s b
  OUT : s.OUT b = transfer trackable cfg (s.IN b) b

theorem settles : Dataflow.Settles cfg.successors (process trackable cfg) (Stable trackable cfg) where
  step b s c hc hsucc := by
    obtain ⟨hIN, hOUT, hiff⟩ := process_cases trackable cfg s b
    -- a block whose successor `c` is not has not changed anything the join of `c` looks at
    have hout : ∀ p ∈ cfg.predecessors c, (process trackable cfg b s).1.OUT p = s.OUT p := by
      intro p hp
      rw [hOUT]
      by_cases hpb : p = b
      · subst hpb
        have hquiet : transfer trackable cfg (newIN cfg s p) p = s.OUT p := by
          by_contra hne
          exact hsucc (hiff.mpr hne) (CFG.mem_predecessors_iff.mp hp)
        rw [Function.update_self, hquiet]
      · rw [Function.update_of_ne hpb]
    have hjoin : cfg.predecessors c ≠ [] →
        newIN cfg (process trackable cfg b s).1 c = newIN cfg s c := by
      intro hp
      rw [newIN_of_ne hp, newIN_of_ne hp, List.map_congr_left hout]
    by_cases hcb : c = b
    · subst hcb
      have hin : (process trackable cfg c s).1.IN c = newIN cfg s c := by
        rw [hIN, Function.update_self]
      refine ⟨?_, by rw [hOUT, Function.update_self, hin]⟩
      by_cases hp : cfg.predecessors c = []
      · rw [newIN_of_nil hp]
      · rw [hin, hjoin hp]
    · obtain ⟨hin, hout'⟩ := hc.resolve_left hcb
      have hIN' : (process trackable cfg b s).1.IN c = s.IN c := by
        rw [hIN, Function.update_of_ne hcb]
      refine ⟨?_, by rw [hOUT, Function.update_of_ne hcb, hIN', hout']⟩
      by_cases hp : cfg.predecessors c = []
      · rw [newIN_of_nil hp]
      · rw [hIN', hjoin hp, hin]

variable (trackable cfg) in
/-- The worklist empties, and no block would change any more. -/
theorem exists_solveConstants :
    ∃ fuel s, (∀ fuel' ≥ fuel, solveConstants trackable cfg fuel' = some s.IN) ∧
      Inv trackable cfg s ∧ ∀ b < cfg.size, Stable trackable cfg b s := by
  obtain ⟨d, hd⟩ : ∃ d, ∀ b, (cfg.successors b).length ≤ d := by
    refine ⟨(cfg.blocks.map fun blk => blk.successors.length).sum, fun b => ?_⟩
    rw [CFG.successors]
    cases hb : cfg.blocks[b]? with
    | none => exact Nat.zero_le _
    | some blk =>
      exact List.single_le_sum (by simp) _ (List.mem_map_of_mem (List.mem_of_getElem? hb))
  obtain ⟨fuel, s, hrun, hinv⟩ : ∃ fuel s, Dataflow.solve cfg.successors (process trackable cfg) fuel
      (List.range cfg.size) {} = some s ∧ Inv trackable cfg s :=
    ⟨_, climbs.exists_solve hd inv_init le_rfl⟩
  refine ⟨fuel, s, fun fuel' hle => ?_, hinv, ?_⟩
  · rw [solveConstants, Dataflow.solve_mono hle hrun]
    rfl
  · exact settles.solve_stable hrun fun c hc hmem => absurd (List.mem_range.mpr hc) hmem

end TurfLang.ValueRange
