import TurfLang.Analysis.DefiniteAssignment
import TurfLang.Lib.Loop

/-!
# Definite assignment is the meet over all paths

At the start of a block the fixpoint has exactly the variables that every path from the entry has
defined. So a read is unassigned for the pass when some path to it has not defined the variable,
and the first such read is the one the pass raises at.
-/

namespace TurfLang.DefiniteAssignment

variable {cfg : CFG Statement}

/-- A list of events defines a variable. -/
def Defines (es : List Event) (x : VariableSymbol) : Prop := ∃ loc, .onDef loc x ∈ es

variable (cfg) in
/-- On every path to a block the variable is defined before the block. -/
def Assigned (b : ℕ) (x : VariableSymbol) : Prop :=
  ∀ bs, cfg.Path bs b → ∃ p ∈ bs, Defines (events cfg p) x

theorem mem_foldl_insertDef {x : VariableSymbol} : ∀ {es : List Event} {cur : AssignSet},
    x ∈ es.foldl insertDef cur ↔ x ∈ cur ∨ Defines es x
  | [], cur => by simp [Defines]
  | .onRead loc sym :: es, cur => by
    rw [List.foldl_cons, mem_foldl_insertDef, insertDef]
    simp [Defines]
  | .onDef loc sym :: es, cur => by
    rw [List.foldl_cons, mem_foldl_insertDef, insertDef, Finset.mem_insert]
    simp only [Defines, List.mem_cons, Event.onDef.injEq]
    constructor
    · rintro ((rfl | h) | ⟨loc', h⟩)
      · exact .inr ⟨loc, .inl ⟨rfl, rfl⟩⟩
      · exact .inl h
      · exact .inr ⟨loc', .inr h⟩
    · rintro (h | ⟨loc', ⟨rfl, rfl⟩ | h⟩)
      · exact .inl (.inr h)
      · exact .inl (.inl rfl)
      · exact .inr ⟨loc', h⟩

theorem mem_computeOUT {cur : AssignSet} {b : ℕ} {x : VariableSymbol} :
    x ∈ computeOUT cfg cur b ↔ x ∈ cur ∨ Defines (events cfg b) x :=
  mem_foldl_insertDef

/-! ### The meet over the predecessors -/

theorem foldl_meet (cfg : CFG Statement) (s : Facts) (b : ℕ) (x : VariableSymbol) : ∀ (ps : List ℕ) (acc : AssignSet × Bool),
    let r := ps.foldl (fun acc p =>
      if (cfg.successors p).any (· = b) then (acc.1.filter (· ∈ s.OUT p), true) else acc) acc
    (x ∈ r.1 ↔ x ∈ acc.1 ∧ ∀ p ∈ ps, b ∈ cfg.successors p → x ∈ s.OUT p) ∧
      (r.2 = true ↔ acc.2 = true ∨ ∃ p ∈ ps, b ∈ cfg.successors p)
  | [], acc => by simp
  | p :: ps, acc => by
    have hany : (cfg.successors p).any (· = b) = true ↔ b ∈ cfg.successors p := by simp
    have ih := foldl_meet cfg s b x ps
      (if (cfg.successors p).any (· = b) then (acc.1.filter (· ∈ s.OUT p), true) else acc)
    simp only [List.foldl_cons, List.forall_mem_cons, List.exists_mem_cons_iff]
    simp only at ih
    rw [ih.1, ih.2]
    by_cases hp : b ∈ cfg.successors p
    · rw [if_pos (hany.mpr hp)]
      simp only [Finset.mem_filter, hp, true_implies, true_or, or_true]
      exact ⟨and_assoc, trivial⟩
    · rw [if_neg (fun h => hp (hany.mp h))]
      simp [hp]

theorem mem_newIN {s : Facts} {b : ℕ} {x : VariableSymbol} :
    x ∈ (newIN cfg s b).1 ↔
      x ∈ allBodyDeclared cfg ∧ ∀ p, b ∈ cfg.successors p → x ∈ s.OUT p := by
  have h := (foldl_meet cfg s b x (List.range cfg.size) (allBodyDeclared cfg, false)).1
  rw [newIN, h]
  refine and_congr_right fun _ => ⟨fun hp p hb => ?_, fun hp p _ hb => hp p hb⟩
  exact hp p (List.mem_range.mpr (CFG.lt_of_mem_successors hb).1) hb

theorem hasPred_iff {s : Facts} {b : ℕ} :
    (newIN cfg s b).2 = true ↔ ∃ p, b ∈ cfg.successors p := by
  have h := (foldl_meet cfg s b ⟨0, "", "", false, 0⟩ (List.range cfg.size)
    (allBodyDeclared cfg, false)).2
  rw [newIN, h]
  constructor
  · rintro (hf | ⟨p, -, hb⟩)
    · exact absurd hf (by simp)
    · exact ⟨p, hb⟩
  · rintro ⟨p, hb⟩
    exact .inr ⟨p, List.mem_range.mpr (CFG.lt_of_mem_successors hb).1, hb⟩

/-! ### What the rounds keep -/

variable (cfg) in
/-- The sets in the middle of the loop: what leaves a block is what enters it and its definitions,
nothing is assigned at the entry, the sets only have to shrink, and they have not lost a variable
that every path defines. -/
structure Inv (s : Facts) : Prop where
  out : ∀ b, s.OUT b = computeOUT cfg (s.IN b) b
  entry : s.IN cfg.entryIdx = ∅
  shrinks : ∀ b ≠ cfg.entryIdx, (newIN cfg s b).2 = true → (newIN cfg s b).1 ⊆ s.IN b
  keeps : ∀ b, ∀ x ∈ allBodyDeclared cfg, Assigned cfg b x → x ∈ s.IN b

/-- A variable that every path to a block defines is defined at the end of each predecessor. -/
theorem Assigned.out {s : Facts} (hs : Inv cfg s) {p b : ℕ} (hb : b ∈ cfg.successors p)
    {x : VariableSymbol} (hx : x ∈ allBodyDeclared cfg) (h : Assigned cfg b x) : x ∈ s.OUT p := by
  rw [hs.out, mem_computeOUT]
  by_cases hdef : Defines (events cfg p) x
  · exact .inr hdef
  · refine .inl (hs.keeps p x hx fun bs hpath => ?_)
    obtain ⟨q, hq, hqx⟩ := h _ (hpath.step hb)
    rcases List.mem_append.mp hq with hq | hq
    · exact ⟨q, hq, hqx⟩
    · obtain rfl : q = p := by simpa using hq
      exact absurd hqx hdef

theorem not_assigned_entry {x : VariableSymbol} : ¬Assigned cfg cfg.entryIdx x := by
  intro h
  obtain ⟨p, hp, -⟩ := h [] .entry
  simp at hp

theorem init_IN (b : ℕ) :
    (init cfg).IN b = if b = cfg.entryIdx then ∅ else allBodyDeclared cfg := rfl

theorem inv_init (cfg : CFG Statement) : Inv cfg (init cfg) where
  out b := rfl
  entry := if_pos rfl
  shrinks b hb _ x hx := by
    rw [init_IN, if_neg hb]
    exact (mem_newIN.mp hx).1
  keeps b x hx h := by
    rw [init_IN]
    split_ifs with hb
    · subst hb
      exact absurd h not_assigned_entry
    · exact hx

/-- A visit that changes something, with what it changes. -/
theorem visit_cases (cfg : CFG Statement) (s : Facts) (b : ℕ) :
    visit cfg b s = (s, false) ∧
        (b ≠ cfg.entryIdx → (newIN cfg s b).2 = true → (newIN cfg s b).1 = s.IN b) ∨
      b ≠ cfg.entryIdx ∧ (newIN cfg s b).2 = true ∧ (newIN cfg s b).1 ≠ s.IN b ∧
        visit cfg b s = (⟨Function.update s.IN b (newIN cfg s b).1,
          Function.update s.OUT b (computeOUT cfg (newIN cfg s b).1 b)⟩, true) := by
  unfold visit
  split_ifs with hb hp hne
  · exact .inl ⟨rfl, fun h => absurd hb h⟩
  · exact .inl ⟨rfl, fun _ h => by simp [h] at hp⟩
  · exact .inr ⟨hb, by simpa using hp, hne, rfl⟩
  · exact .inl ⟨rfl, fun _ _ => not_not.mp hne⟩

theorem Inv.update {s : Facts} (hs : Inv cfg s) {b : ℕ} (hb : b ≠ cfg.entryIdx)
    (hp : (newIN cfg s b).2 = true) :
    Inv cfg ⟨Function.update s.IN b (newIN cfg s b).1,
      Function.update s.OUT b (computeOUT cfg (newIN cfg s b).1 b)⟩ := by
  have hless : ∀ c, Function.update s.OUT b (computeOUT cfg (newIN cfg s b).1 b) c ⊆ s.OUT c := by
    intro c x hx
    by_cases hc : c = b
    · subst hc
      rw [Function.update_self, mem_computeOUT] at hx
      rw [hs.out, mem_computeOUT]
      exact hx.imp (fun h => hs.shrinks c hb hp h) id
    · rwa [Function.update_of_ne hc] at hx
  constructor
  · intro c
    by_cases hc : c = b
    · subst hc
      simp only [Function.update_self]
    · simp only [Function.update_of_ne hc]
      exact hs.out c
  · simpa only [Function.update_of_ne (Ne.symm hb)] using hs.entry
  · intro c hc hpc x hx
    rw [mem_newIN] at hx
    have hx' : x ∈ (newIN cfg s c).1 := mem_newIN.mpr ⟨hx.1, fun p hp => hless p (hx.2 p hp)⟩
    by_cases hcb : c = b
    · subst hcb
      simpa only [Function.update_self] using hx'
    · simp only [Function.update_of_ne hcb]
      exact hs.shrinks c hc (hasPred_iff.mpr (hasPred_iff.mp hpc)) hx'
  · intro c x hx h
    by_cases hc : c = b
    · subst hc
      simp only [Function.update_self]
      exact mem_newIN.mpr ⟨hx, fun p hp => h.out hs hp hx⟩
    · simp only [Function.update_of_ne hc]
      exact hs.keeps c x hx h

/-- The elements of all the sets `IN`. -/
def weight (n : ℕ) (s : Facts) : ℕ := ∑ b ∈ Finset.range n, (s.IN b).card

theorem descends : RoundRobin.Descends (visit cfg) cfg.size (Inv cfg) (weight cfg.size) where
  keeps b _ s hs := by
    obtain ⟨hv, -⟩ | ⟨hb, hp, -, hv⟩ := visit_cases cfg s b
    · rwa [hv]
    · rw [hv]
      exact hs.update hb hp
  drops b hlt s hs hchanged := by
    obtain ⟨hv, -⟩ | ⟨hb, hp, hne, hv⟩ := visit_cases cfg s b
    · simp [hv] at hchanged
    · rw [hv]
      have hsub := hs.shrinks b hb hp
      refine Finset.sum_lt_sum (fun c _ => ?_) ⟨b, Finset.mem_range.mpr hlt, ?_⟩
      · by_cases hc : c = b
        · subst hc
          simpa only [Function.update_self] using Finset.card_le_card hsub
        · simp only [Function.update_of_ne hc, le_refl]
      · simpa only [Function.update_self] using Finset.card_lt_card (hsub.ssubset_of_ne hne)
  quiet b _ s _ hquiet := by
    obtain ⟨hv, -⟩ | ⟨-, -, -, hv⟩ := visit_cases cfg s b
    · rw [hv]
    · simp [hv] at hquiet

/-- The sets that no visit changes: what enters a block is the meet of what leaves its
predecessors. -/
theorem newIN_eq_of_quiet {s : Facts} {b : ℕ} (h : (visit cfg b s).2 = false)
    (hb : b ≠ cfg.entryIdx) (hp : (newIN cfg s b).2 = true) : (newIN cfg s b).1 = s.IN b := by
  obtain ⟨-, heq⟩ | ⟨-, -, -, hv⟩ := visit_cases cfg s b
  · exact heq hb hp
  · simp [hv] at h

/-- A variable in a stable set is defined on every path. -/
theorem assigned_of_mem {s : Facts} (hs : Inv cfg s)
    (hquiet : ∀ b < cfg.size, (visit cfg b s).2 = false) {bs : List ℕ} {b : ℕ} (h : cfg.Path bs b)
    {x : VariableSymbol} (hx : x ∈ s.IN b) : ∃ p ∈ bs, Defines (events cfg p) x := by
  induction h with
  | entry => simp [hs.entry] at hx
  | @step bs p b hpath hb ih =>
    have hne : b ≠ cfg.entryIdx := by
      rintro rfl
      simp [hs.entry] at hx
    have hp := hasPred_iff (s := s).mpr ⟨p, hb⟩
    rw [← newIN_eq_of_quiet (hquiet b (CFG.lt_of_mem_successors hb).2) hne hp, mem_newIN] at hx
    have hout := hx.2 p hb
    rw [hs.out, mem_computeOUT] at hout
    rcases hout with hin | hdef
    · obtain ⟨q, hq, hqx⟩ := ih hin
      exact ⟨q, List.mem_append_left _ hq, hqx⟩
    · exact ⟨p, by simp, hdef⟩

/-- The fixpoint loop ends, and what it has at the start of a block is what every path from the
entry has defined. -/
theorem exists_fixpoint (cfg : CFG Statement) :
    ∃ fuel s, (∀ fuel' ≥ fuel, fixpoint cfg fuel' = some s) ∧
      ∀ b, ∀ x ∈ allBodyDeclared cfg, x ∈ s.IN b ↔ Assigned cfg b x := by
  obtain ⟨s, hrun, hs, hquiet⟩ := descends.exists_run (inv_init cfg)
    (Nat.lt_succ_self (weight cfg.size (init cfg)))
  exact ⟨_, s, fun _ hle => RoundRobin.run_mono hle hrun, fun b x hx =>
    ⟨fun h bs hpath => assigned_of_mem hs hquiet hpath h, hs.keeps b x hx⟩⟩

/-! ### The reads -/

variable (cfg) in
/-- At an event of a list, started with a set of assigned variables, a variable of the body is read
that is not assigned yet. -/
def Flagged (cur : AssignSet) (es : List Event) (i : ℕ) : Prop :=
  ∃ loc sym, es[i]? = some (.onRead loc sym) ∧ sym ∈ allBodyDeclared cfg ∧
    sym ∉ cur ∧ ¬Defines (es.take i) sym

theorem flagged_succ {cur : AssignSet} {e : Event} {es : List Event} {i : ℕ} :
    Flagged cfg cur (e :: es) (i + 1) ↔ Flagged cfg (insertDef cur e) es i := by
  have hset : ∀ sym, (sym ∉ cur ∧ ¬Defines ((e :: es).take (i + 1)) sym) ↔
      (sym ∉ insertDef cur e ∧ ¬Defines (es.take i) sym) := by
    intro sym
    rw [← not_or, ← not_or, ← mem_foldl_insertDef, ← mem_foldl_insertDef, List.take_succ_cons,
      List.foldl_cons]
  simp only [Flagged, List.getElem?_cons_succ, hset]

/-- The check of a list of events raises at the first one that reads an unassigned variable. -/
theorem checkEvents_spec (cfg : CFG Statement) : ∀ (es : List Event) (cur : AssignSet),
    checkEvents cfg cur es = .ok () ∧ (∀ i, ¬Flagged cfg cur es i) ∨
      ∃ i loc sym, es[i]? = some (.onRead loc sym) ∧ Flagged cfg cur es i ∧
        (∀ j < i, ¬Flagged cfg cur es j) ∧ checkEvents cfg cur es = .error (errorAt loc sym)
  | [], cur => .inl ⟨rfl, fun i ⟨_, _, h, _⟩ => by simp at h⟩
  | e :: es, cur => by
    have hrest := checkEvents_spec cfg es (insertDef cur e)
    by_cases h0 : Flagged cfg cur (e :: es) 0
    · obtain ⟨loc, sym, he, hx, hcur, hdef⟩ := h0
      obtain rfl : e = .onRead loc sym := by simpa using he
      exact .inr ⟨0, loc, sym, he, ⟨loc, sym, he, hx, hcur, hdef⟩, by simp, if_pos ⟨hx, hcur⟩⟩
    · have hcheck : checkEvents cfg cur (e :: es) = checkEvents cfg (insertDef cur e) es := by
        cases e with
        | onRead loc sym =>
          refine if_neg fun ⟨hx, hcur⟩ => h0 ⟨loc, sym, rfl, hx, hcur, ?_⟩
          simp [Defines]
        | onDef loc sym => rfl
      rw [hcheck]
      obtain ⟨hok, hall⟩ | ⟨i, loc, sym, he, hi, hall, herr⟩ := hrest
      · refine .inl ⟨hok, fun i => ?_⟩
        cases i with
        | zero => exact h0
        | succ i => exact fun h => hall i (flagged_succ.mp h)
      · refine .inr ⟨i + 1, loc, sym, he, flagged_succ.mpr hi, fun j hj => ?_, herr⟩
        cases j with
        | zero => exact h0
        | succ j => exact fun h => hall j (by omega) (flagged_succ.mp h)

variable (cfg) in
/-- At an event of a block a variable of the body is read that some path from the entry has not
defined before. -/
def Unassigned (b i : ℕ) : Prop :=
  ∃ loc sym, (events cfg b)[i]? = some (.onRead loc sym) ∧ sym ∈ allBodyDeclared cfg ∧
    ∃ bs, cfg.Path bs b ∧ (∀ p ∈ bs, ¬Defines (events cfg p) sym) ∧
      ¬Defines ((events cfg b).take i) sym

theorem flagged_iff {s : Facts} {b : ℕ}
    (h : ∀ x ∈ allBodyDeclared cfg, x ∈ s.IN b ↔ Assigned cfg b x) {i : ℕ} :
    Flagged cfg (s.IN b) (events cfg b) i ↔ Unassigned cfg b i := by
  refine exists_congr fun loc => exists_congr fun sym => and_congr_right fun _ =>
    and_congr_right fun hx => ?_
  rw [h sym hx, Assigned]
  push Not
  constructor
  · rintro ⟨⟨bs, hpath, hbs⟩, hdef⟩
    exact ⟨bs, hpath, hbs, hdef⟩
  · rintro ⟨bs, hpath, hbs, hdef⟩
    exact ⟨⟨bs, hpath, hbs⟩, hdef⟩

/-- The loop ends; at the start of a block it has the variables that every path has defined. The
pass raises nothing when no read is unassigned on some path, and else raises at the first that is,
in the order of the blocks and of the events in a block. -/
theorem runOnCFG_raises_first (cfg : CFG Statement) :
    ∃ fuel s, (∀ fuel' ≥ fuel, fixpoint cfg fuel' = some s) ∧
      (∀ b, ∀ x ∈ allBodyDeclared cfg, x ∈ s.IN b ↔ Assigned cfg b x) ∧
      ∀ fuel' ≥ fuel,
        runOnCFG cfg fuel' = some (.ok ()) ∧ (∀ b i, ¬Unassigned cfg b i) ∨
        ∃ b i loc sym, (events cfg b)[i]? = some (.onRead loc sym) ∧ Unassigned cfg b i ∧
          (∀ c < b, ∀ j, ¬Unassigned cfg c j) ∧ (∀ j < i, ¬Unassigned cfg b j) ∧
          runOnCFG cfg fuel' = some (.error (errorAt loc sym)) := by
  obtain ⟨fuel, s, hfix, hmem⟩ := exists_fixpoint cfg
  refine ⟨fuel, s, hfix, hmem, fun fuel' hle => ?_⟩
  have hflag : ∀ b i, Flagged cfg (s.IN b) (events cfg b) i ↔ Unassigned cfg b i :=
    fun b i => flagged_iff (hmem b)
  have hrun : runOnCFG cfg fuel' = some
      ((List.range cfg.size).forM fun b => checkEvents cfg (s.IN b) (events cfg b)) := by
    rw [runOnCFG, hfix fuel' hle]
    split_ifs with hn
    · rw [hn]
      rfl
    · rfl
  have hblock : ∀ c, checkEvents cfg (s.IN c) (events cfg c) = .ok () →
      ∀ j, ¬Unassigned cfg c j := by
    intro c hc j
    obtain ⟨-, hall⟩ | ⟨i, loc, sym, -, -, -, herr⟩ := checkEvents_spec cfg (events cfg c) (s.IN c)
    · rw [← hflag]
      exact hall j
    · simp [herr] at hc
  have hout : ∀ c ≥ cfg.size, events cfg c = [] := by
    intro c hc
    rw [events, CFG.statements, List.getElem?_eq_none hc]
    rfl
  rw [hrun]
  obtain ⟨hok, hall⟩ | ⟨b, -, e, herr, hall, hforM⟩ :=
    Loop.forM_range (fun b => checkEvents cfg (s.IN b) (events cfg b)) cfg.size
  · refine .inl ⟨congrArg some hok, fun b i => ?_⟩
    by_cases hb : b < cfg.size
    · exact hblock b (hall b hb) i
    · rintro ⟨loc, sym, he, -⟩
      simp [hout b (by omega)] at he
  · obtain ⟨hok, -⟩ | ⟨i, loc, sym, he, hi, hbefore, herr'⟩ :=
      checkEvents_spec cfg (events cfg b) (s.IN b)
    · simp [hok] at herr
    · refine .inr ⟨b, i, loc, sym, he, (hflag b i).mp hi, fun c hc => hblock c (hall c hc),
        fun j hj => ?_, ?_⟩
      · rw [← hflag]
        exact hbefore j hj
      · obtain rfl : errorAt loc sym = e := by simpa using herr'.symm.trans herr
        exact congrArg some hforM

/-- A variable that is declared and then read twice. -/
def readTwice : VariableSymbol := ⟨0, "x", "int", false, 0⟩

/-- The one block that does so. -/
def readTwiceCfg : CFG Statement where
  blocks := [⟨[⟨[readTwice], []⟩, ⟨[], [.onRead 1 readTwice]⟩, ⟨[], [.onRead 2 readTwice]⟩], [], []⟩]
  entryBlock := some 0
  entry_lt := by decide
  successors_lt := by decide
  predecessors_lt := by decide
  mem_predecessors := by decide

/-- The second read is unassigned as well, and the pass does not raise at it. -/
theorem runOnCFG_skips_second :
    ¬∀ (cfg : CFG Statement) (b i loc : ℕ) (sym : VariableSymbol),
      (events cfg b)[i]? = some (.onRead loc sym) → sym ∈ allBodyDeclared cfg →
      (∃ bs, cfg.Path bs b) →
        ((∃ fuel, runOnCFG cfg fuel = some (.error (errorAt loc sym))) ↔ Unassigned cfg b i) := by
  intro h
  have hread : (events readTwiceCfg 0)[1]? = some (.onRead 2 readTwice) := rfl
  have hdecl : readTwice ∈ allBodyDeclared readTwiceCfg := by decide
  obtain ⟨fuel, hraise⟩ := (h readTwiceCfg 0 1 2 readTwice hread hdecl ⟨[], .entry⟩).mpr
    ⟨2, readTwice, hread, hdecl, [], .entry, by simp, by simp [Defines, events, readTwiceCfg, CFG.statements]⟩
  cases fuel with
  | zero => exact absurd hraise (by simp [runOnCFG, fixpoint, RoundRobin.run, CFG.size, readTwiceCfg])
  | succ fuel =>
    have hfirst : runOnCFG readTwiceCfg (fuel + 1) = some (.error (errorAt 1 readTwice)) := rfl
    rw [hfirst] at hraise
    exact absurd hraise (by decide)

end TurfLang.DefiniteAssignment
