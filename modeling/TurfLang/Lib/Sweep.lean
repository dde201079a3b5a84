import Mathlib.Tactic

/-!
# Sweeps over a growing list of entries

Several handlers take turns at a list of entries. Each sweeps it by position, from the first
entry to the last one there is when the sweep gets to it, and says whether it did any work; the
turns are repeated until a whole round does none. Work may append entries and costs budget.
-/

namespace TurfLang.Sweep

variable {σ ε κ : Type*}

/-- `for (i = 0; i < size(s); ++i)`, from position `i` on, with the size read again each time.
`none` is running out of fuel. -/
def sweep (size : σ → ℕ) (f : σ → ℕ → Except ε (σ × Bool)) :
    ℕ → ℕ → σ → Bool → Option (Except ε (σ × Bool))
  | 0, _, _, _ => none
  | fuel + 1, i, s, did =>
    if i < size s then
      match f s i with
      | .error e => some (.error e)
      | .ok (s', worked) => sweep size f fuel (i + 1) s' (did || worked)
    else some (.ok (s, did))

/-- One turn for each handler. -/
def round (size : σ → ℕ) (f : κ → σ → ℕ → Except ε (σ × Bool)) (fuel : ℕ) :
    List κ → σ → Bool → Option (Except ε (σ × Bool))
  | [], s, progress => some (.ok (s, progress))
  | k :: ks, s, progress =>
    match sweep size (f k) fuel 0 s false with
    | none => none
    | some (.error e) => some (.error e)
    | some (.ok (s', did)) => round size f fuel ks s' (progress || did)

/-- `while (Progress)`. -/
def rounds (size : σ → ℕ) (f : κ → σ → ℕ → Except ε (σ × Bool)) (order : List κ) :
    ℕ → σ → Option (Except ε σ)
  | 0, _ => none
  | fuel + 1, s =>
    match round size f fuel order s false with
    | none => none
    | some (.error e) => some (.error e)
    | some (.ok (s', progress)) =>
      if progress then rounds size f order fuel s' else some (.ok s')

/-! ### The calls a run makes -/

/-- The states and positions a sweep calls its handler with. -/
def sweepCalls (size : σ → ℕ) (f : σ → ℕ → Except ε (σ × Bool)) : ℕ → ℕ → σ → List (σ × ℕ)
  | 0, _, _ => []
  | fuel + 1, i, s =>
    if i < size s then
      (s, i) ::
        match f s i with
        | .error _ => []
        | .ok (s', _) => sweepCalls size f fuel (i + 1) s'
    else []

/-- The calls of one turn for each handler. -/
def roundCalls (size : σ → ℕ) (f : κ → σ → ℕ → Except ε (σ × Bool)) (fuel : ℕ) :
    List κ → σ → List (κ × σ × ℕ)
  | [], _ => []
  | k :: ks, s =>
    (sweepCalls size (f k) fuel 0 s).map (k, ·) ++
      match sweep size (f k) fuel 0 s false with
      | some (.ok (s', _)) => roundCalls size f fuel ks s'
      | _ => []

/-- All calls of a run. -/
def roundsCalls (size : σ → ℕ) (f : κ → σ → ℕ → Except ε (σ × Bool)) (order : List κ) :
    ℕ → σ → List (κ × σ × ℕ)
  | 0, _ => []
  | fuel + 1, s =>
    roundCalls size f fuel order s ++
      match round size f fuel order s false with
      | some (.ok (s', true)) => roundsCalls size f order fuel s'
      | _ => []

/-! ### More fuel changes nothing -/

section Fuel

variable {size : σ → ℕ} {fuel fuel' : ℕ}

theorem sweep_mono (hle : fuel ≤ fuel') {f : σ → ℕ → Except ε (σ × Bool)} {i : ℕ} {s : σ}
    {did : Bool} {r : Except ε (σ × Bool)} (h : sweep size f fuel i s did = some r) :
    sweep size f fuel' i s did = some r := by
  induction fuel generalizing fuel' i s did with
  | zero => simp [sweep] at h
  | succ n ih =>
    obtain ⟨n', rfl⟩ : ∃ n', fuel' = n' + 1 := ⟨fuel' - 1, by omega⟩
    unfold sweep at h ⊢
    split
    case isFalse hi => simpa [hi] using h
    case isTrue hi =>
      simp only [hi, if_true] at h
      cases hf : f s i with
      | error e => simpa [hf] using h
      | ok p =>
        simp only [hf] at h
        exact ih (by omega) h

theorem round_mono (hle : fuel ≤ fuel') {f : κ → σ → ℕ → Except ε (σ × Bool)} {ks : List κ}
    {s : σ} {progress : Bool} {r : Except ε (σ × Bool)}
    (h : round size f fuel ks s progress = some r) : round size f fuel' ks s progress = some r := by
  induction ks generalizing s progress with
  | nil => exact h
  | cons k ks ih =>
    unfold round at h ⊢
    cases hs : sweep size (f k) fuel 0 s false with
    | none => simp [hs] at h
    | some p =>
      rw [sweep_mono hle hs]
      cases p with
      | error e => simpa [hs] using h
      | ok p =>
        simp only [hs] at h
        exact ih h

theorem rounds_mono (hle : fuel ≤ fuel') {f : κ → σ → ℕ → Except ε (σ × Bool)} {order : List κ}
    {s : σ} {r : Except ε σ} (h : rounds size f order fuel s = some r) :
    rounds size f order fuel' s = some r := by
  induction fuel generalizing fuel' s with
  | zero => simp [rounds] at h
  | succ n ih =>
    obtain ⟨n', rfl⟩ : ∃ n', fuel' = n' + 1 := ⟨fuel' - 1, by omega⟩
    unfold rounds at h ⊢
    cases hr : round size f n order s false with
    | none => simp [hr] at h
    | some p =>
      rw [round_mono (by omega : n ≤ n') hr]
      cases p with
      | error e => simpa [hr] using h
      | ok p =>
        simp only [hr] at h ⊢
        split
        case isTrue hp => exact ih (by omega) (by simpa [hp] using h)
        case isFalse hp => simpa [hp] using h

end Fuel

/-- A sweep does not forget that it did work. -/
theorem did_of_sweep {size : σ → ℕ} {f : σ → ℕ → Except ε (σ × Bool)} {fuel i : ℕ} {s s' : σ}
    {did did' : Bool} (hr : sweep size f fuel i s did = some (.ok (s', did')))
    (hd : did = true) : did' = true := by
  induction fuel generalizing i s did with
  | zero => simp [sweep] at hr
  | succ n ih =>
    unfold sweep at hr
    split at hr
    · cases hf : f s i with
      | error e => simp [hf] at hr
      | ok p =>
        simp only [hf] at hr
        exact ih hr (by simp [hd])
    · simp only [Option.some.injEq, Except.ok.injEq, Prod.mk.injEq] at hr
      exact hr.2 ▸ hd

/-! ### What every call keeps -/

section Calls

variable {size : σ → ℕ} {f : κ → σ → ℕ → Except ε (σ × Bool)} {P : σ → Prop}
  {Q : κ → σ → ℕ → Prop}

/-- What a handler's calls keep while they meet `Q`, a sweep keeps: at each of its calls and at
its end; an error is one of its calls'. -/
theorem sweep_keeps {g : σ → ℕ → Except ε (σ × Bool)} {R : σ → ℕ → Prop}
    (hstep : ∀ ⦃s i s' b⦄, P s → R s i → g s i = .ok (s', b) → P s') {fuel i : ℕ} {s : σ}
    (did : Bool) (hs : P s) (hR : ∀ c ∈ sweepCalls size g fuel i s, R c.1 c.2) :
    (∀ c ∈ sweepCalls size g fuel i s, P c.1) ∧
      (∀ s' did', sweep size g fuel i s did = some (.ok (s', did')) → P s') ∧
      ∀ e, sweep size g fuel i s did = some (.error e) →
        ∃ c ∈ sweepCalls size g fuel i s, g c.1 c.2 = .error e := by
  induction fuel generalizing i s did with
  | zero => simp [sweepCalls, sweep]
  | succ n ih =>
    unfold sweepCalls at hR ⊢
    unfold sweep
    split
    case isFalse hi => simpa using hs
    case isTrue hi =>
      simp only [hi, if_true, List.forall_mem_cons] at hR
      cases hg : g s i with
      | error e =>
        simp only [List.mem_cons, List.not_mem_nil, or_false]
        refine ⟨by rintro c rfl; exact hs, by simp, fun e' he => ⟨_, rfl, ?_⟩⟩
        obtain rfl : e = e' := by simpa using he
        exact hg
      | ok p =>
        obtain ⟨s₁, worked⟩ := p
        simp only [hg] at hR
        obtain ⟨hcalls, hend, herr⟩ := ih (did || worked) (hstep hs hR.1 hg) hR.2
        refine ⟨List.forall_mem_cons.mpr ⟨hs, hcalls⟩, hend, fun e he => ?_⟩
        obtain ⟨c, hc, hce⟩ := herr e he
        exact ⟨c, .tail _ hc, hce⟩

/-- The same for a round. -/
theorem round_keeps (hstep : ∀ ⦃k s i s' b⦄, P s → Q k s i → f k s i = .ok (s', b) → P s')
    {ks : List κ} {fuel : ℕ} {s : σ} (progress : Bool) (hs : P s)
    (hQ : ∀ c ∈ roundCalls size f fuel ks s, Q c.1 c.2.1 c.2.2) :
    (∀ c ∈ roundCalls size f fuel ks s, P c.2.1) ∧
      (∀ s' p', round size f fuel ks s progress = some (.ok (s', p')) → P s') ∧
      ∀ e, round size f fuel ks s progress = some (.error e) →
        ∃ c ∈ roundCalls size f fuel ks s, f c.1 c.2.1 c.2.2 = .error e := by
  induction ks generalizing s progress with
  | nil => simpa [roundCalls, round] using hs
  | cons k ks ih =>
    unfold roundCalls at hQ ⊢
    unfold round
    simp only [List.forall_mem_append, List.forall_mem_map] at hQ ⊢
    have hk : ∀ ⦃s i s' b⦄, P s → Q k s i → f k s i = .ok (s', b) → P s' :=
      fun _ _ _ _ hs hq h => hstep hs hq h
    obtain ⟨hcalls, hend, herr⟩ := sweep_keeps hk false hs hQ.1
    cases hsw : sweep size (f k) fuel 0 s false with
    | none => simpa using hcalls
    | some r =>
      cases r with
      | error e =>
        refine ⟨⟨hcalls, by simp⟩, by simp, fun e' he => ?_⟩
        obtain rfl : e = e' := by simpa using he
        obtain ⟨c, hc, hce⟩ := herr e hsw
        exact ⟨(k, c), by simpa using hc, hce⟩
      | ok p =>
        obtain ⟨s₁, did⟩ := p
        simp only [hsw] at hQ
        obtain ⟨hcalls', hend', herr'⟩ := ih (progress || did) (hend s₁ did hsw) hQ.2
        refine ⟨⟨hcalls, hcalls'⟩, hend', fun e he => ?_⟩
        obtain ⟨c, hc, hce⟩ := herr' e he
        exact ⟨c, List.mem_append_right _ hc, hce⟩

/-- The same for a whole run. -/
theorem rounds_keeps (hstep : ∀ ⦃k s i s' b⦄, P s → Q k s i → f k s i = .ok (s', b) → P s')
    {order : List κ} {fuel : ℕ} {s : σ} (hs : P s)
    (hQ : ∀ c ∈ roundsCalls size f order fuel s, Q c.1 c.2.1 c.2.2) :
    (∀ c ∈ roundsCalls size f order fuel s, P c.2.1) ∧
      (∀ s', rounds size f order fuel s = some (.ok s') → P s') ∧
      ∀ e, rounds size f order fuel s = some (.error e) →
        ∃ c ∈ roundsCalls size f order fuel s, f c.1 c.2.1 c.2.2 = .error e := by
  induction fuel generalizing s with
  | zero => simp [roundsCalls, rounds]
  | succ n ih =>
    unfold roundsCalls at hQ ⊢
    unfold rounds
    simp only [List.forall_mem_append] at hQ ⊢
    obtain ⟨hcalls, hend, herr⟩ := round_keeps hstep false hs hQ.1
    cases hrd : round size f n order s false with
    | none => simpa using hcalls
    | some r =>
      cases r with
      | error e =>
        refine ⟨⟨hcalls, by simp⟩, by simp, fun e' he => ?_⟩
        obtain rfl : e = e' := by simpa using he
        obtain ⟨c, hc, hce⟩ := herr e hrd
        exact ⟨c, by simpa using hc, hce⟩
      | ok p =>
        obtain ⟨s₁, progress⟩ := p
        have hs₁ := hend s₁ progress hrd
        cases progress with
        | false => exact ⟨⟨hcalls, by simp⟩, by simpa using hs₁, by simp⟩
        | true =>
          simp only [hrd] at hQ
          obtain ⟨hcalls', hend', herr'⟩ := ih hs₁ hQ.2
          refine ⟨⟨hcalls, hcalls'⟩, by simpa using hend', fun e he => ?_⟩
          obtain ⟨c, hc, hce⟩ := herr' e (by simpa using he)
          exact ⟨c, List.mem_append_right _ hc, hce⟩

end Calls

/-! ### The rule for rounds of sweeps -/

/-- What a family of handlers promises while `Inv` holds: a handler that works costs budget, and
one that does not changes the state only by `Quiet` and leaves its entry `Done`. -/
structure Tame (size : σ → ℕ) (f : κ → σ → ℕ → Except ε (σ × Bool)) (Inv : σ → Prop)
    (budget : σ → ℕ) (Quiet : σ → σ → Prop) (Done : κ → σ → ℕ → Prop) : Prop where
  inv : ∀ ⦃k s i s' b⦄, Inv s → f k s i = .ok (s', b) → Inv s'
  work : ∀ ⦃k s i s'⦄, Inv s → i < size s → f k s i = .ok (s', true) → budget s' < budget s
  quiet : ∀ ⦃k s i s'⦄, Inv s → i < size s → f k s i = .ok (s', false) → Quiet s s' ∧ Done k s' i
  refl : ∀ s, Quiet s s
  trans : ∀ ⦃s s' s''⦄, Quiet s s' → Quiet s' s'' → Quiet s s''
  size_eq : ∀ ⦃s s'⦄, Quiet s s' → size s' = size s
  budget_eq : ∀ ⦃s s'⦄, Quiet s s' → budget s' = budget s
  done : ∀ ⦃k s s' i⦄, Quiet s s' → Done k s i → Done k s' i

namespace Tame

variable {size : σ → ℕ} {f : κ → σ → ℕ → Except ε (σ × Bool)} {Inv : σ → Prop}
  {budget : σ → ℕ} {Quiet : σ → σ → Prop} {Done : κ → σ → ℕ → Prop}

/-- A sweep ends. -/
theorem exists_sweep (h : Tame size f Inv budget Quiet Done) (k : κ) {s : σ} (hs : Inv s) (i : ℕ)
    (did : Bool) : ∃ fuel r, sweep size (f k) fuel i s did = some r := by
  -- the budget falls, or it stays and the sweep comes nearer to the end
  induction hb : budget s using Nat.strong_induction_on generalizing s i did with
  | _ b ihb =>
    induction hn : size s - i generalizing s i did with
    | zero =>
      have hi : ¬i < size s := by omega
      exact ⟨1, .ok (s, did), by simp [sweep, hi]⟩
    | succ n ihn =>
      have hi : i < size s := by omega
      cases hf : f k s i with
      | error e => exact ⟨1, .error e, by simp [sweep, hi, hf]⟩
      | ok p =>
        obtain ⟨s', worked⟩ := p
        have hnext : ∃ fuel r, sweep size (f k) fuel (i + 1) s' (did || worked) = some r := by
          cases worked with
          | true => exact ihb _ (hb ▸ h.work hs hi hf) (h.inv hs hf) _ _ rfl
          | false =>
            obtain ⟨hq, -⟩ := h.quiet hs hi hf
            refine ihn (h.inv hs hf) (i + 1) _ ((h.budget_eq hq).trans hb) ?_
            rw [h.size_eq hq]
            omega
        obtain ⟨fuel, r, hr⟩ := hnext
        exact ⟨fuel + 1, r, by simp [sweep, hi, hf, hr]⟩

/-- What a sweep that ends well leaves: the invariant, and either budget was spent or the state
has only changed quietly, and every entry from `i` on was called with such a state and is done. -/
theorem sweep_spec (h : Tame size f Inv budget Quiet Done) {k : κ} {fuel i : ℕ} {s s' : σ}
    {did did' : Bool} (hs : Inv s) (hr : sweep size (f k) fuel i s did = some (.ok (s', did'))) :
    Inv s' ∧ budget s' ≤ budget s ∧ (did' = true → did = true ∨ budget s' < budget s) ∧
      (did' = false → Quiet s s' ∧ ∀ j, i ≤ j → j < size s' → Done k s' j ∧
        ∃ c ∈ sweepCalls size (f k) fuel i s, c.2 = j ∧ Quiet c.1 s') := by
  induction fuel generalizing i s did with
  | zero => simp [sweep] at hr
  | succ n ih =>
    unfold sweep at hr
    unfold sweepCalls
    split at hr
    case isFalse hi =>
      simp only [Option.some.injEq, Except.ok.injEq, Prod.mk.injEq] at hr
      obtain ⟨rfl, rfl⟩ := hr
      exact ⟨hs, le_rfl, .inl, fun _ => ⟨h.refl s, fun j hj hlt => absurd hlt (by omega)⟩⟩
    case isTrue hi =>
      cases hf : f k s i with
      | error e => simp [hf] at hr
      | ok p =>
        obtain ⟨s₁, worked⟩ := p
        simp only [hf] at hr
        obtain ⟨hinv, hle, hwork, hquiet⟩ := ih (h.inv hs hf) hr
        cases worked with
        | true =>
          have hlt := h.work hs hi hf
          refine ⟨hinv, by omega, fun _ => .inr (by omega), fun hd => ?_⟩
          have := did_of_sweep hr (by simp)
          simp [hd] at this
        | false =>
          obtain ⟨hq, hdone⟩ := h.quiet hs hi hf
          have hbud := h.budget_eq hq
          refine ⟨hinv, by omega, fun hd => ?_, fun hd => ?_⟩
          · simpa [hbud] using hwork hd
          · obtain ⟨hq', hdone'⟩ := hquiet hd
            have hq'' := h.trans hq hq'
            refine ⟨hq'', fun j hj hlt => ?_⟩
            rw [if_pos hi]
            obtain rfl | hj := eq_or_lt_of_le hj
            · exact ⟨h.done hq' hdone, _, .head _, rfl, hq''⟩
            · obtain ⟨hd, c, hc, hcj, hcq⟩ := hdone' j hj hlt
              exact ⟨hd, c, List.mem_cons_of_mem _ (by simpa [hf] using hc), hcj, hcq⟩

/-- A round of sweeps ends. -/
theorem exists_round (h : Tame size f Inv budget Quiet Done) (ks : List κ) {s : σ} (hs : Inv s)
    (progress : Bool) : ∃ fuel r, round size f fuel ks s progress = some r := by
  induction ks generalizing s progress with
  | nil => exact ⟨0, _, rfl⟩
  | cons k ks ih =>
    obtain ⟨fuel, r, hr⟩ := h.exists_sweep k hs 0 false
    cases r with
    | error e => exact ⟨fuel, .error e, by simp [round, hr]⟩
    | ok p =>
      obtain ⟨s', did⟩ := p
      obtain ⟨fuel', r, hr'⟩ := ih (h.sweep_spec hs hr).1 (progress || did)
      refine ⟨max fuel fuel', r, ?_⟩
      unfold round
      rw [sweep_mono (le_max_left ..) hr]
      exact round_mono (le_max_right ..) hr'

/-- What a round that ends well leaves: the invariant, and either budget was spent or the state
has only changed quietly, and every handler of the round was called on every entry with such a
state and is done with it. -/
theorem round_spec (h : Tame size f Inv budget Quiet Done) {ks : List κ} {fuel : ℕ} {s s' : σ}
    {progress progress' : Bool} (hs : Inv s)
    (hr : round size f fuel ks s progress = some (.ok (s', progress'))) :
    Inv s' ∧ budget s' ≤ budget s ∧
      (progress' = true → progress = true ∨ budget s' < budget s) ∧
      (progress' = false → progress = false ∧ Quiet s s' ∧
        ∀ k ∈ ks, ∀ j < size s', Done k s' j ∧
          ∃ s₁, (k, s₁, j) ∈ roundCalls size f fuel ks s ∧ Quiet s₁ s') := by
  induction ks generalizing s progress with
  | nil =>
    simp only [round, Option.some.injEq, Except.ok.injEq, Prod.mk.injEq] at hr
    obtain ⟨rfl, rfl⟩ := hr
    exact ⟨hs, le_rfl, .inl, fun hp => ⟨hp, h.refl s, by simp⟩⟩
  | cons k ks ih =>
    unfold round at hr
    unfold roundCalls
    cases hsw : sweep size (f k) fuel 0 s false with
    | none => simp [hsw] at hr
    | some r =>
      cases r with
      | error e => simp [hsw] at hr
      | ok p =>
        obtain ⟨s₁, did⟩ := p
        simp only [hsw] at hr
        obtain ⟨hinv, hle, hwork, hquiet⟩ := h.sweep_spec hs hsw
        obtain ⟨hinv', hle', hwork', hquiet'⟩ := ih hinv hr
        refine ⟨hinv', by omega, fun hp => ?_, fun hp => ?_⟩
        · obtain hp | hlt := hwork' hp
          · obtain hp | hd := Bool.or_eq_true_iff.mp hp
            · exact .inl hp
            · obtain hf | hlt := hwork hd
              · simp at hf
              · exact .inr (by omega)
          · exact .inr (by omega)
        · obtain ⟨hor, hq', hdone'⟩ := hquiet' hp
          obtain ⟨hp, hd⟩ := Bool.or_eq_false_iff.mp hor
          obtain ⟨hq, hdone⟩ := hquiet hd
          refine ⟨hp, h.trans hq hq', fun k' hk' j hj => ?_⟩
          obtain rfl | hk' := List.mem_cons.mp hk'
          · rw [h.size_eq hq'] at hj
            obtain ⟨hd, c, hc, rfl, hcq⟩ := hdone j (Nat.zero_le j) hj
            exact ⟨h.done hq' hd, c.1,
              List.mem_append_left _ (List.mem_map_of_mem hc), h.trans hcq hq'⟩
          · obtain ⟨hd, s₂, hc, hcq⟩ := hdone' k' hk' j hj
            exact ⟨hd, s₂, List.mem_append_right _ hc, hcq⟩

/-- The rounds end. -/
theorem exists_rounds (h : Tame size f Inv budget Quiet Done) (order : List κ) {s : σ}
    (hs : Inv s) : ∃ fuel r, rounds size f order fuel s = some r := by
  induction hb : budget s using Nat.strong_induction_on generalizing s with
  | _ b ih =>
    obtain ⟨fuel, r, hr⟩ := h.exists_round order hs false
    cases r with
    | error e => exact ⟨fuel + 1, .error e, by simp [rounds, hr]⟩
    | ok p =>
      obtain ⟨s', progress⟩ := p
      obtain ⟨hinv, -, hwork, -⟩ := h.round_spec hs hr
      cases progress with
      | false => exact ⟨fuel + 1, .ok s', by simp [rounds, hr]⟩
      | true =>
        have hlt : budget s' < b := by simpa [hb] using hwork rfl
        obtain ⟨fuel', r, hr'⟩ := ih _ hlt hinv rfl
        refine ⟨max fuel fuel' + 1, r, ?_⟩
        unfold rounds
        rw [round_mono (le_max_left ..) hr]
        simpa using rounds_mono (le_max_right ..) hr'

/-- When the rounds end well, every handler was called on every entry with a state that differs
from the last one only quietly, and is done with it. -/
theorem rounds_spec (h : Tame size f Inv budget Quiet Done) {order : List κ} {fuel : ℕ}
    {s s' : σ} (hs : Inv s) (hr : rounds size f order fuel s = some (.ok s')) :
    Inv s' ∧ ∀ k ∈ order, ∀ j < size s', Done k s' j ∧
      ∃ s₁, (k, s₁, j) ∈ roundsCalls size f order fuel s ∧ Quiet s₁ s' := by
  induction fuel generalizing s with
  | zero => simp [rounds] at hr
  | succ n ih =>
    unfold rounds at hr
    unfold roundsCalls
    cases hrd : round size f n order s false with
    | none => simp [hrd] at hr
    | some r =>
      cases r with
      | error e => simp [hrd] at hr
      | ok p =>
        obtain ⟨s₁, progress⟩ := p
        simp only [hrd] at hr
        obtain ⟨hinv, -, -, hquiet⟩ := h.round_spec hs hrd
        cases progress with
        | true =>
          obtain ⟨hinv', hdone⟩ := ih hinv (by simpa using hr)
          refine ⟨hinv', fun k hk j hj => ?_⟩
          obtain ⟨hd, s₂, hc, hcq⟩ := hdone k hk j hj
          exact ⟨hd, s₂, List.mem_append_right _ hc, hcq⟩
        | false =>
          obtain rfl : s₁ = s' := by simpa using hr
          refine ⟨hinv, fun k hk j hj => ?_⟩
          obtain ⟨hd, s₂, hc, hcq⟩ := (hquiet rfl).2.2 k hk j hj
          exact ⟨hd, s₂, List.mem_append_left _ hc, hcq⟩

end Tame

end TurfLang.Sweep
