import Mathlib.Tactic

/-!
# Memoised search with provisional answers

A question about a key is answered by a look at the key itself and by the same question about
the keys it leads to. Answers are kept in a memo; a key whose question is still open counts as
*no*. Which predicate such a search computes, over a whole sequence of questions, is decided
by one local condition, checked at each key the search opens.
-/

namespace TurfLang.Search

variable {κ : Type*}

/-- What the memo says of a key. -/
inductive Mark
  | inProgress
  | no
  | yes
  deriving DecidableEq

/-- The mark of an answer. -/
def Mark.ofAnswer (found : Bool) : Mark := if found then .yes else .no

/-- The memo; a key it has no entry for was never asked about. -/
abbrev Memo (κ : Type*) := κ → Option Mark

/-- What a look at one key shows: whether it is a hit by itself, and the keys it leads to, in
the order they are asked about. -/
structure Graph (κ : Type*) where
  hit : κ → Bool
  next : κ → List κ

/-! ### The search -/

/-- Asks about each key of a list in turn; every one is asked, also after a yes. -/
def askAll (ask : κ → Memo κ → Option (Bool × Memo κ)) :
    List κ → Bool → Memo κ → Option (Bool × Memo κ)
  | [], found, memo => some (found, memo)
  | c :: cs, found, memo =>
    (ask c memo).bind fun r => askAll ask cs (found || r.1) r.2

theorem askAll_append (f : κ → Memo κ → Option (Bool × Memo κ)) (cs ds : List κ) (found : Bool)
    (memo : Memo κ) :
    askAll f (cs ++ ds) found memo =
      (askAll f cs found memo).bind fun r => askAll f ds r.1 r.2 := by
  induction cs generalizing found memo with
  | nil => rfl
  | cons c cs ih =>
    simp only [List.cons_append, askAll, Option.bind_assoc]
    congr 1
    funext r
    exact ih _ _

/-- What asking about a non-empty list can do. -/
theorem askAll_cons_eq_some {f : κ → Memo κ → Option (Bool × Memo κ)} {c : κ} {cs : List κ}
    {found b : Bool} {memo memo' : Memo κ} :
    askAll f (c :: cs) found memo = some (b, memo') ↔
      ∃ a memo₁, f c memo = some (a, memo₁) ∧ askAll f cs (found || a) memo₁ = some (b, memo') := by
  simp only [askAll, Option.bind_eq_some_iff, Prod.exists]

theorem askAll_mono {f g : κ → Memo κ → Option (Bool × Memo κ)}
    (hfg : ∀ c memo r, f c memo = some r → g c memo = some r) {cs : List κ} {found : Bool}
    {memo : Memo κ} {r : Bool × Memo κ} (h : askAll f cs found memo = some r) :
    askAll g cs found memo = some r := by
  induction cs generalizing found memo with
  | nil => exact h
  | cons c cs ih =>
    obtain ⟨a, memo₁, ha, hcs⟩ := askAll_cons_eq_some.mp h
    exact askAll_cons_eq_some.mpr ⟨a, memo₁, hfg _ _ _ ha, ih hcs⟩

/-! ### Marks are kept -/

/-- Later memos keep every mark and leave no key open that was not open before. -/
structure Extends (memo memo' : Memo κ) : Prop where
  keeps : ∀ ⦃x mark⦄, memo x = some mark → memo' x = some mark
  closes : ∀ ⦃x⦄, memo' x = some .inProgress → memo x = some .inProgress

theorem Extends.refl (memo : Memo κ) : Extends memo memo := ⟨fun _ _ h => h, fun _ h => h⟩

theorem Extends.trans {memo memo' memo'' : Memo κ} (h : Extends memo memo')
    (h' : Extends memo' memo'') : Extends memo memo'' :=
  ⟨fun _ _ hx => h'.keeps (h.keeps hx), fun _ hx => h.closes (h'.closes hx)⟩

theorem Extends.inProgress_iff {memo memo' : Memo κ} (h : Extends memo memo') (x : κ) :
    memo' x = some .inProgress ↔ memo x = some .inProgress :=
  ⟨fun hx => h.closes hx, fun hx => h.keeps hx⟩

theorem askAll_extends {f : κ → Memo κ → Option (Bool × Memo κ)}
    (hf : ∀ c memo b memo', f c memo = some (b, memo') → Extends memo memo') {cs : List κ}
    {found b : Bool} {memo memo' : Memo κ} (h : askAll f cs found memo = some (b, memo')) :
    Extends memo memo' := by
  induction cs generalizing found memo with
  | nil =>
    simp only [askAll, Option.some.injEq, Prod.mk.injEq] at h
    exact h.2 ▸ .refl memo
  | cons c cs ih =>
    obtain ⟨a, memo₁, ha, hcs⟩ := askAll_cons_eq_some.mp h
    exact (hf _ _ _ _ ha).trans (ih hcs)

/-- The keys of `U` the memo has no mark for. -/
def unmarked (U : Finset κ) (memo : Memo κ) : Finset κ := U.filter fun x => memo x = none

theorem unmarked_subset {U : Finset κ} {memo memo' : Memo κ} (h : Extends memo memo') :
    unmarked U memo' ⊆ unmarked U memo := by
  intro x hx
  simp only [unmarked, Finset.mem_filter] at hx ⊢
  refine ⟨hx.1, ?_⟩
  by_contra hne
  obtain ⟨mark, hmark⟩ := Option.ne_none_iff_exists'.mp hne
  simp [h.keeps hmark] at hx

variable [DecidableEq κ]

/-- Asks about one key. `none` is running out of fuel. -/
def ask (G : Graph κ) : ℕ → κ → Memo κ → Option (Bool × Memo κ)
  | 0, _, _ => none
  | fuel + 1, k, memo =>
    match memo k with
    | some mark => some (mark == .yes, memo)
    | none =>
      (askAll (ask G fuel) (G.next k) (G.hit k) (Function.update memo k (some .inProgress))).map
        fun r => (r.1, Function.update r.2 k (some (.ofAnswer r.1)))

section ask

variable {G : Graph κ} {fuel : ℕ} {k : κ} {memo memo' : Memo κ} {b : Bool}

theorem ask_of_marked {mark : Mark} (h : memo k = some mark) :
    ask G (fuel + 1) k memo = some (mark == .yes, memo) := by
  simp only [ask, h]

theorem ask_of_unmarked (h : memo k = none) :
    ask G (fuel + 1) k memo =
      (askAll (ask G fuel) (G.next k) (G.hit k) (Function.update memo k (some .inProgress))).map
        fun r => (r.1, Function.update r.2 k (some (.ofAnswer r.1))) := by
  simp only [ask, h]

/-- What asking can do: read the memo, or open the key, ask about all it leads to and close it. -/
theorem ask_cases (h : ask G fuel k memo = some (b, memo')) :
    (∃ mark, memo k = some mark ∧ b = (mark == .yes) ∧ memo' = memo) ∨
    ∃ f memo₁, fuel = f + 1 ∧ memo k = none ∧
      askAll (ask G f) (G.next k) (G.hit k) (Function.update memo k (some .inProgress)) =
        some (b, memo₁) ∧
      memo' = Function.update memo₁ k (some (.ofAnswer b)) := by
  cases fuel with
  | zero => simp [ask] at h
  | succ f =>
    cases hk : memo k with
    | some mark =>
      rw [ask_of_marked hk] at h
      simp only [Option.some.injEq, Prod.mk.injEq] at h
      exact .inl ⟨mark, rfl, h.1.symm, h.2.symm⟩
    | none =>
      rw [ask_of_unmarked hk, Option.map_eq_some_iff] at h
      obtain ⟨⟨b₁, memo₁⟩, hall, heq⟩ := h
      simp only [Prod.mk.injEq] at heq
      obtain ⟨rfl, rfl⟩ := heq
      exact .inr ⟨f, memo₁, rfl, rfl, hall, rfl⟩

end ask

/-! ### More fuel changes nothing -/

theorem ask_mono {G : Graph κ} {fuel fuel' : ℕ} (hle : fuel ≤ fuel') {k : κ} {memo : Memo κ}
    {r : Bool × Memo κ} (h : ask G fuel k memo = some r) : ask G fuel' k memo = some r := by
  induction fuel generalizing fuel' k memo r with
  | zero => simp [ask] at h
  | succ f ih =>
    obtain ⟨f', rfl⟩ : ∃ f', fuel' = f' + 1 := ⟨fuel' - 1, by omega⟩
    cases hk : memo k with
    | some mark => rw [ask_of_marked hk] at h ⊢; exact h
    | none =>
      rw [ask_of_unmarked hk, Option.map_eq_some_iff] at h ⊢
      obtain ⟨r₁, hall, heq⟩ := h
      exact ⟨r₁, askAll_mono (fun c memo r hr => ih (by omega) hr) hall, heq⟩

theorem Mark.ofAnswer_ne_inProgress (b : Bool) : Mark.ofAnswer b ≠ .inProgress := by
  cases b <;> simp [Mark.ofAnswer]

@[simp] theorem Mark.ofAnswer_eq_yes {b : Bool} : Mark.ofAnswer b = .yes ↔ b = true := by
  cases b <;> simp [Mark.ofAnswer]

@[simp] theorem Mark.ofAnswer_eq_no {b : Bool} : Mark.ofAnswer b = .no ↔ b = false := by
  cases b <;> simp [Mark.ofAnswer]

/-- Opening a key, working on and closing it again is one extension. -/
theorem Extends.close {memo memo₁ : Memo κ} {k : κ} (hk : memo k = none)
    (h : Extends (Function.update memo k (some .inProgress)) memo₁) (b : Bool) :
    Extends memo (Function.update memo₁ k (some (.ofAnswer b))) where
  keeps x mark hx := by
    have hne : x ≠ k := by rintro rfl; simp [hk] at hx
    rw [Function.update_of_ne hne]
    exact h.keeps (by rwa [Function.update_of_ne hne])
  closes x hx := by
    by_cases hxk : x = k
    · subst hxk
      rw [Function.update_self, Option.some.injEq] at hx
      exact absurd hx (Mark.ofAnswer_ne_inProgress b)
    · rw [Function.update_of_ne hxk] at hx
      simpa [Function.update_of_ne hxk] using h.closes hx

theorem ask_extends {G : Graph κ} {fuel : ℕ} {k : κ} {memo memo' : Memo κ} {b : Bool}
    (h : ask G fuel k memo = some (b, memo')) : Extends memo memo' := by
  induction fuel generalizing k memo b memo' with
  | zero => simp [ask] at h
  | succ f ih =>
    obtain ⟨_, _, _, rfl⟩ | ⟨f', memo₁, hf, hk, hall, rfl⟩ := ask_cases h
    · exact .refl _
    · obtain rfl : f = f' := by omega
      exact .close hk (askAll_extends (fun _ _ _ _ hc => ih hc) hall) b

/-- A key that was asked about has a mark, and unless it was open the mark is the answer. -/
theorem ask_mark {G : Graph κ} {fuel : ℕ} {k : κ} {memo memo' : Memo κ} {b : Bool}
    (h : ask G fuel k memo = some (b, memo')) :
    (memo k = some .inProgress ∧ b = false ∧ memo' = memo) ∨ memo' k = some (.ofAnswer b) := by
  obtain ⟨mark, hk, rfl, rfl⟩ | ⟨f, memo₁, -, -, -, rfl⟩ := ask_cases h
  · cases mark with
    | inProgress => exact .inl ⟨hk, rfl, rfl⟩
    | no => exact .inr hk
    | yes => exact .inr hk
  · exact .inr (Function.update_self ..)

/-! ### Enough fuel -/

theorem card_unmarked_update {U : Finset κ} {memo : Memo κ} {k : κ} (hU : k ∈ U)
    (hk : memo k = none) (mark : Mark) :
    (unmarked U (Function.update memo k (some mark))).card < (unmarked U memo).card := by
  refine Finset.card_lt_card (Finset.ssubset_iff_of_subset ?_ |>.mpr ⟨k, ?_, ?_⟩)
  · intro x hx
    simp only [unmarked, Finset.mem_filter] at hx ⊢
    have hne : x ≠ k := by rintro rfl; simp at hx
    exact ⟨hx.1, by simpa [Function.update_of_ne hne] using hx.2⟩
  · simp [unmarked, hU, hk]
  · simp [unmarked]

/-- Over a finite set of keys that is closed under `next`, fuel for each unmarked key is enough. -/
theorem exists_ask {G : Graph κ} {U : Finset κ} (hclosed : ∀ x ∈ U, ∀ c ∈ G.next x, c ∈ U)
    {fuel : ℕ} {k : κ} {memo : Memo κ} (hU : k ∈ U) (hfuel : (unmarked U memo).card < fuel) :
    ∃ b memo', ask G fuel k memo = some (b, memo') := by
  induction fuel generalizing k memo with
  | zero => omega
  | succ f ih =>
    cases hk : memo k with
    | some mark => exact ⟨_, _, ask_of_marked hk⟩
    | none =>
      have hall : ∀ (cs : List κ) (found : Bool) (memo₁ : Memo κ), (∀ c ∈ cs, c ∈ U) →
          (unmarked U memo₁).card < f → ∃ r, askAll (ask G f) cs found memo₁ = some r := by
        intro cs
        induction cs with
        | nil => exact fun found memo₁ _ _ => ⟨_, rfl⟩
        | cons c cs ihcs =>
          intro found memo₁ hcs hlt
          obtain ⟨a, memo₂, ha⟩ := ih (hcs c List.mem_cons_self) hlt
          have hle := Finset.card_le_card (unmarked_subset (U := U) (ask_extends ha))
          obtain ⟨r, hr⟩ := ihcs (found || a) memo₂
            (fun d hd => hcs d (List.mem_cons_of_mem _ hd)) (by omega)
          exact ⟨r, askAll_cons_eq_some.mpr ⟨a, memo₂, ha, hr⟩⟩
      have hlt := card_unmarked_update hU hk .inProgress
      obtain ⟨r, hr⟩ := hall (G.next k) (G.hit k) (Function.update memo k (some .inProgress))
        (hclosed k hU) (by omega)
      exact ⟨_, _, by rw [ask_of_unmarked hk, hr]; rfl⟩

/-! ### What one look decides -/

/-- Every closed mark of the memo is right about `W`. -/
def Settled (W : κ → Prop) (memo : Memo κ) : Prop :=
  ∀ x, (memo x = some .yes → W x) ∧ (memo x = some .no → ¬W x)

/-- The verdict of one look at `k`: a hit by itself, or one of the keys it leads to satisfies
`W`, those that are open (`k` itself among them) counting as *no*. -/
def Look (G : Graph κ) (W : κ → Prop) (memo : Memo κ) (k : κ) : Prop :=
  G.hit k = true ∨ ∃ c ∈ G.next k, c ≠ k ∧ memo c ≠ some .inProgress ∧ W c

/-- After asking about a list, every key of it is marked, and the answer is yes exactly if it
was yes before or one of them is marked yes. -/
theorem askAll_found {G : Graph κ} {fuel : ℕ} {cs : List κ} {found b : Bool}
    {memo memo' : Memo κ} (h : askAll (ask G fuel) cs found memo = some (b, memo')) :
    (∀ c ∈ cs, memo' c ≠ none) ∧
      (b = true ↔ found = true ∨ ∃ c ∈ cs, memo' c = some .yes) := by
  induction cs generalizing found memo with
  | nil =>
    simp only [askAll, Option.some.injEq, Prod.mk.injEq] at h
    simp [h.1]
  | cons c cs ih =>
    obtain ⟨a, memo₁, ha, hcs⟩ := askAll_cons_eq_some.mp h
    obtain ⟨hne, hiff⟩ := ih hcs
    have hext : Extends memo₁ memo' := askAll_extends (fun _ _ _ _ hc => ask_extends hc) hcs
    obtain ⟨hopen, rfl, rfl⟩ | hmark := ask_mark ha
    · have hc := hext.keeps hopen
      refine ⟨?_, ?_⟩
      · rintro d (_ | ⟨_, hd⟩)
        · simp [hc]
        · exact hne d hd
      · rw [hiff]
        simp [hc]
    · have hc := hext.keeps hmark
      refine ⟨?_, ?_⟩
      · rintro d (_ | ⟨_, hd⟩)
        · simp [hc]
        · exact hne d hd
      · rw [hiff]
        simp [hc, or_assoc]

/-- If all marks are right once the keys below `k` have been asked about, the answer for `k` is
what one look at it says. -/
theorem answer_iff_look {G : Graph κ} {W : κ → Prop} {fuel : ℕ} {k : κ} {memo memo₁ : Memo κ}
    {b : Bool} (hall : askAll (ask G fuel) (G.next k) (G.hit k)
      (Function.update memo k (some .inProgress)) = some (b, memo₁))
    (hset : ∀ x, x ≠ k → (memo₁ x = some .yes → W x) ∧ (memo₁ x = some .no → ¬W x)) :
    b = true ↔ Look G W memo k := by
  obtain ⟨hne, hiff⟩ := askAll_found hall
  have hext := askAll_extends (fun _ _ _ _ hc => ask_extends hc) hall
  rw [hiff]
  refine or_congr_right (exists_congr fun c => and_congr_right fun hc => ?_)
  have hopen := hext.inProgress_iff c
  by_cases hck : c = k
  · subst hck
    have : memo₁ c = some .inProgress := hopen.mpr (Function.update_self ..)
    simp [this]
  · rw [Function.update_of_ne hck] at hopen
    cases hm : memo₁ c with
    | none => exact absurd hm (hne c hc)
    | some mark =>
      have hs := hset c hck
      cases mark <;> simp_all

/-! ### The keys a search opens -/

/-- `Opens G memo k memo' k'`: a question about `k` asked in `memo` comes to open `k'`, in
`memo'`. -/
inductive Opens (G : Graph κ) : Memo κ → κ → Memo κ → κ → Prop
  | here {memo k} : memo k = none → Opens G memo k memo k
  | deeper {memo k pre c post fuel b memo₁ memo' k'} : memo k = none →
      G.next k = pre ++ c :: post →
      askAll (ask G fuel) pre (G.hit k) (Function.update memo k (some .inProgress)) =
        some (b, memo₁) →
      Opens G memo₁ c memo' k' → Opens G memo k memo' k'

theorem Opens.unmarked {G : Graph κ} {memo memo' : Memo κ} {k k' : κ}
    (h : Opens G memo k memo' k') : memo' k' = none := by
  induction h with
  | here hk => exact hk
  | deeper _ _ _ _ ih => exact ih

theorem Opens.keeps {G : Graph κ} {memo memo' : Memo κ} {k k' : κ}
    (h : Opens G memo k memo' k') {x : κ} {mark : Mark} (hx : memo x = some mark) :
    memo' x = some mark := by
  induction h with
  | here => exact hx
  | @deeper memo k _ _ _ _ _ _ _ _ hk _ hall _ ih =>
    have hne : x ≠ k := by rintro rfl; simp [hk] at hx
    refine ih ((askAll_extends (fun _ _ _ _ hc => ask_extends hc) hall).keeps ?_)
    rwa [Function.update_of_ne hne]

/-- An opened key is asked about, and what that finds stays in the memo. -/
theorem Opens.exists_ask {G : Graph κ} {memo memo' memo'' : Memo κ} {k k' : κ} {fuel : ℕ}
    {b : Bool} (h : Opens G memo k memo' k') (hask : ask G fuel k memo = some (b, memo'')) :
    ∃ f b' m, ask G f k' memo' = some (b', m) ∧
      ∀ x mark, mark ≠ .inProgress → m x = some mark → memo'' x = some mark := by
  induction h generalizing fuel b memo'' with
  | here => exact ⟨fuel, b, memo'', hask, fun _ _ _ hx => hx⟩
  | @deeper memo k pre c post f₀ b₀ memo₁ memo' k' hk hnext hall hopens ih =>
    obtain ⟨mark, hmark, -, -⟩ | ⟨f, m, rfl, -, hall', rfl⟩ := ask_cases hask
    · simp [hk] at hmark
    -- the search runs the same prefix, with fuel of its own
    have hle : f ≤ max f f₀ := le_max_left ..
    have hle₀ : f₀ ≤ max f f₀ := le_max_right ..
    have hall₁ := askAll_mono (fun c memo r hr => ask_mono hle hr) hall'
    have hall₀ := askAll_mono (fun c memo r hr => ask_mono hle₀ hr) hall
    rw [hnext, askAll_append, hall₀, Option.bind_some] at hall₁
    obtain ⟨a, memo₂, ha, hpost⟩ := askAll_cons_eq_some.mp hall₁
    obtain ⟨f', b', m', hm', hkeep⟩ := ih ha
    refine ⟨f', b', m', hm', fun x mark hmark hx => ?_⟩
    have hxk : x ≠ k := by
      -- `k` is still open when `k'` has been answered
      rintro rfl
      have hopen : memo₁ x = some .inProgress :=
        (askAll_extends (fun _ _ _ _ hc => ask_extends hc) hall).keeps (Function.update_self ..)
      rw [(ask_extends hm').keeps (hopens.keeps hopen), Option.some.injEq] at hx
      exact hmark hx.symm
    rw [Function.update_of_ne hxk]
    exact (askAll_extends (fun _ _ _ _ hc => ask_extends hc) hpost).keeps (hkeep x mark hmark hx)

/-- A key that is open when another is opened leads to it. -/
theorem Opens.reaches {G : Graph κ} {memo memo' : Memo κ} {k k' : κ}
    (h : Opens G memo k memo' k') {x : κ} (hx : memo' x = some .inProgress) :
    memo x = some .inProgress ∨ Relation.TransGen (fun a b => b ∈ G.next a) x k' := by
  suffices hgen : ∀ y, Relation.ReflTransGen (fun a b => b ∈ G.next a) k k' ∧
      (memo' y = some .inProgress →
        memo y = some .inProgress ∨ Relation.TransGen (fun a b => b ∈ G.next a) y k') from
    (hgen x).2 hx
  induction h with
  | here => exact fun y => ⟨.refl, .inl⟩
  | @deeper memo k pre c post _ _ memo₁ memo' k' hk hnext hall _ ih =>
    intro y
    have hc : c ∈ G.next k := by simp [hnext]
    have hkk' := Relation.TransGen.head' hc (ih hx y).1
    refine ⟨hkk'.to_reflTransGen, fun hy => ?_⟩
    obtain hopen | hy' := (ih hx y).2 hy
    · have hopen' := (askAll_extends (fun _ _ _ _ hc => ask_extends hc) hall).closes hopen
      by_cases hyk : y = k
      · subst hyk
        exact .inr hkk'
      · rw [Function.update_of_ne hyk] at hopen'
        exact .inl hopen'
    · exact .inr hy'

/-! ### Sequences of questions -/

section Sequence

variable {G : Graph κ} {W : κ → Prop} {fuel : ℕ}

/-- Every key a question opens is one where a single look is right. -/
def Sighted (G : Graph κ) (W : κ → Prop) (memo : Memo κ) (k : κ) : Prop :=
  ∀ memo' k', Opens G memo k memo' k' → (W k' ↔ Look G W memo' k')

/-- A sequence of questions, each of them `Sighted` in the memo the earlier ones leave. -/
def SightedRun (G : Graph κ) (W : κ → Prop) (question : κ → Memo κ → Option (Bool × Memo κ)) :
    Memo κ → List κ → Prop
  | _, [] => True
  | memo, k :: ks => Sighted G W memo k ∧
      ∀ b memo', question k memo = some (b, memo') → SightedRun G W question memo' ks

/-- A sequence of questions, each of them answered, and rightly. -/
def ExactRun (W : κ → Prop) (question : κ → Memo κ → Option (Bool × Memo κ)) :
    Memo κ → List κ → Prop
  | _, [] => True
  | memo, k :: ks => ∃ b memo', question k memo = some (b, memo') ∧ (b = true ↔ W k) ∧
      ExactRun W question memo' ks

/-- The memo a sequence of questions leaves. -/
def replay (question : κ → Memo κ → Option (Bool × Memo κ)) :
    List κ → Memo κ → Option (Memo κ)
  | [], memo => some memo
  | k :: ks, memo => (question k memo).bind fun r => replay question ks r.2

omit [DecidableEq κ] in
/-- What is left of an exact sequence is exact. -/
theorem ExactRun.after {question : κ → Memo κ → Option (Bool × Memo κ)} {ks ks' : List κ}
    {memo memo' : Memo κ} (h : ExactRun W question memo (ks ++ ks'))
    (hks : replay question ks memo = some memo') : ExactRun W question memo' ks' := by
  induction ks generalizing memo with
  | nil =>
    simp only [replay, Option.some.injEq] at hks
    exact hks ▸ h
  | cons k ks ih =>
    obtain ⟨b, m, hask, -, hrun⟩ := h
    rw [replay, hask, Option.bind_some] at hks
    exact ih hrun hks

/-- No key is open: the state between two questions. -/
def Idle (memo : Memo κ) : Prop := ∀ x, memo x ≠ some .inProgress

/-- If each key opened is one where a single look is right, the marks stay right, and the
answer is right unless the key was open. -/
theorem ask_settled {k : κ} {memo memo' : Memo κ} {b : Bool}
    (h : ask G fuel k memo = some (b, memo')) (hset : Settled W memo)
    (hs : Sighted G W memo k) :
    Settled W memo' ∧ (memo k ≠ some .inProgress → (b = true ↔ W k)) := by
  induction fuel generalizing k memo b memo' with
  | zero => simp [ask] at h
  | succ f ih =>
    obtain ⟨mark, hk, rfl, rfl⟩ | ⟨f', memo₁, hf, hk, hall, rfl⟩ := ask_cases h
    · refine ⟨hset, fun hne => ?_⟩
      have := hset k
      cases mark <;> simp_all
    obtain rfl : f = f' := by omega
    -- the marks stay right while the keys below `k` are asked about
    have hbelow : ∀ (cs pre : List κ) (found : Bool) (m : Memo κ),
        G.next k = pre ++ cs →
        askAll (ask G f) pre (G.hit k) (Function.update memo k (some .inProgress)) =
          some (found, m) →
        Settled W m → askAll (ask G f) cs found m = some (b, memo₁) → Settled W memo₁ := by
      intro cs
      induction cs with
      | nil =>
        intro pre found m _ _ hm hcs
        simp only [askAll, Option.some.injEq, Prod.mk.injEq] at hcs
        exact hcs.2 ▸ hm
      | cons c cs ihcs =>
        intro pre found m hnext hpre hm hcs
        obtain ⟨a, m', ha, hcs'⟩ := askAll_cons_eq_some.mp hcs
        refine ihcs (pre ++ [c]) (found || a) m' (by simpa using hnext) ?_
          (ih ha hm fun memo' k' ho => hs memo' k' (.deeper hk hnext hpre ho)).1 hcs'
        rw [askAll_append, hpre, Option.bind_some]
        exact askAll_cons_eq_some.mpr ⟨a, m', ha, rfl⟩
    have hset₀ : Settled W (Function.update memo k (some .inProgress)) := by
      intro x
      by_cases hxk : x = k
      · subst hxk; simp
      · simpa [Function.update_of_ne hxk] using hset x
    have hset₁ : Settled W memo₁ := hbelow (G.next k) [] _ _ rfl rfl hset₀ hall
    have hb : b = true ↔ W k :=
      (answer_iff_look hall fun x _ => hset₁ x).trans (hs memo k (.here hk)).symm
    refine ⟨fun x => ?_, fun _ => hb⟩
    by_cases hxk : x = k
    · subst hxk
      cases b <;> simp_all [Mark.ofAnswer]
    · simpa [Function.update_of_ne hxk] using hset₁ x

theorem Idle.of_ask {k : κ} {memo memo' : Memo κ} {b : Bool} (hi : Idle memo)
    (h : ask G fuel k memo = some (b, memo')) : Idle memo' :=
  fun x hx => hi x ((ask_extends h).closes hx)

/-- In a sequence of questions that open only keys where a single look is right, every answer
is right. -/
theorem SightedRun.exact (htotal : ∀ k memo, ∃ b memo', ask G fuel k memo = some (b, memo'))
    {memo : Memo κ} {ks : List κ} (h : SightedRun G W (ask G fuel) memo ks) (hi : Idle memo)
    (hset : Settled W memo) : ExactRun W (ask G fuel) memo ks := by
  induction ks generalizing memo with
  | nil => trivial
  | cons k ks ih =>
    obtain ⟨b, memo', hask⟩ := htotal k memo
    obtain ⟨hset', hb⟩ := ask_settled hask hset h.1
    exact ⟨b, memo', hask, hb (hi k), ih (h.2 b memo' hask) (hi.of_ask hask) hset'⟩

/-- If every sequence of questions is answered rightly, the marks are right. -/
theorem settled_of_exact {memo : Memo κ} (h : ∀ ks, ExactRun W (ask G fuel) memo ks) :
    Settled W memo := by
  intro x
  obtain ⟨b, memo', hask, hb, -⟩ := h [x]
  obtain ⟨mark, hx, rfl, -⟩ | ⟨-, -, -, hx, -⟩ := ask_cases hask
  · cases mark <;> simp_all
  · simp [hx]

/-- If every sequence of questions is answered rightly, a single look is right at every key
any of them opens. -/
theorem sightedRun_of_exact {memo : Memo κ} (h : ∀ ks, ExactRun W (ask G fuel) memo ks) (ks : List κ) :
    SightedRun G W (ask G fuel) memo ks := by
  induction ks generalizing memo with
  | nil => trivial
  | cons k ks ih =>
    have hafter : ∀ {b memo'}, ask G fuel k memo = some (b, memo') →
        ∀ ks', ExactRun W (ask G fuel) memo' ks' := by
      intro b memo' hask ks'
      obtain ⟨b', m, hask', -, hrun⟩ := h (k :: ks')
      rw [hask, Option.some.injEq, Prod.mk.injEq] at hask'
      exact hask'.2 ▸ hrun
    refine ⟨fun memo' k' hopens => ?_, fun b memo' hask => ih (hafter hask)⟩
    obtain ⟨b, memo'', hask, -⟩ := h [k]
    have hset : Settled W memo'' := settled_of_exact (hafter hask)
    obtain ⟨f, b', m, hm, hkeep⟩ := hopens.exists_ask hask
    have hset' : Settled W m := fun x =>
      ⟨fun hx => (hset x).1 (hkeep x _ (by simp) hx), fun hx => (hset x).2 (hkeep x _ (by simp) hx)⟩
    obtain ⟨mark, hmark, -⟩ | ⟨f', memo₁, -, -, hall, rfl⟩ := ask_cases hm
    · simp [hopens.unmarked] at hmark
    have hb : b' = true ↔ Look G W memo' k' := by
      refine answer_iff_look hall fun x hx => ?_
      simpa [Function.update_of_ne hx] using hset' x
    rw [← hb]
    have hk' := hset' k'
    cases b' <;> simp_all [Mark.ofAnswer]

end Sequence

end TurfLang.Search
