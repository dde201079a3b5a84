import Mathlib.Tactic

/-!
# Behaviours with abrupt ends

What a structured program may do is a set of finite traces, each with the way it ended: at its end,
by a jump out of a loop, out of the whole body, or cut off where it stood. Programs are put
together by sequence, choice, loops that catch the jumps meant for them, and cleanup code that runs
at every end. The laws say how cleanup at the ends of a program is spread over its parts.
-/

/-- How a run ends. -/
inductive Outcome
  | normal
  | breaks
  | continues
  | returns
  | fails
  | halts
  deriving DecidableEq

/-- What a program may do. -/
abbrev Behaviour (ε : Type) := List ε → Outcome → Prop

namespace Behaviour

variable {ε : Type}

/-- Behaviours are equal when they have the same runs. -/
theorem ext {a b : Behaviour ε} (h : ∀ t o, a t o ↔ b t o) : a = b :=
  funext fun t => funext fun o => propext (h t o)

/-! ### Programs -/

/-- End in a certain way, doing nothing. -/
def jump (o : Outcome) : Behaviour ε := fun t o' => t = [] ∧ o' = o

/-- Do nothing. -/
def skip : Behaviour ε := jump .normal

/-- One event. -/
def event (e : ε) : Behaviour ε := fun t o => t = [e] ∧ o = .normal

/-- One event, before which the program may be cut off. -/
def op (e : ε) : Behaviour ε := fun t o => t = [e] ∧ o = .normal ∨ t = [] ∧ o = .halts

/-- No run at all. -/
def never : Behaviour ε := fun _ _ => False

def choice (a b : Behaviour ε) : Behaviour ε := fun t o => a t o ∨ b t o

/-- A program that can be entered only if a condition holds. -/
def given (p : Prop) (a : Behaviour ε) : Behaviour ε := fun t o => p ∧ a t o

/-- At the end of every run, what `f` says for the way it ended; then the run ends that way, unless
`f` ends it otherwise. -/
def onExit (f : Outcome → Behaviour ε) (a : Behaviour ε) : Behaviour ε := fun t o =>
  ∃ t₁ o₁ t₂ o₂, a t₁ o₁ ∧ f o₁ t₂ o₂ ∧ t = t₁ ++ t₂ ∧ o = if o₂ = .normal then o₁ else o₂

/-- One program, and then another if the first came to its end. -/
def seq (a b : Behaviour ε) : Behaviour ε := fun t o =>
  (a t o ∧ o ≠ .normal) ∨ ∃ t₁ t₂, a t₁ .normal ∧ b t₂ o ∧ t = t₁ ++ t₂

/-- Cleanup that is done however the program ends, unless it is cut off. -/
def always (d : Behaviour ε) : Outcome → Behaviour ε
  | .halts => skip
  | _ => d

/-- `a`, and `d` at each of its ends. -/
def cleanup (a d : Behaviour ε) : Behaviour ε := onExit (always d) a

/-- What is done at jumps alone. -/
def jumps (f : Outcome → Behaviour ε) : Outcome → Behaviour ε
  | .normal => skip
  | o => f o

@[simp] theorem jumps_normal (f : Outcome → Behaviour ε) : jumps f .normal = skip := rfl

/-- Every run ends in a way that is allowed. -/
def Within (p : Outcome → Prop) (a : Behaviour ε) : Prop := ∀ t o, a t o → p o

/-- The program as seen by one who sees only some of the events. -/
def only (k : ε → Bool) (a : Behaviour ε) : Behaviour ε := fun t o => ∃ t', a t' o ∧ t = t'.filter k

/-! ### Loops -/

/-- What a loop is made of. A test before each round, the body, and a step after it; whether the
test and the step may end the loop, and may let it go on. -/
structure Parts (ε : Type) where
  test : Behaviour ε
  canEnter : Prop
  canLeave : Prop
  body : Behaviour ε
  step : Behaviour ε
  canRepeat : Prop
  canStop : Prop

/-- The runs of a loop. A `continues` of the body ends the round and a `breaks` the loop; every
other jump leaves the loop too. -/
inductive Loop (P : Parts ε) : Behaviour ε
  | leave {t : List ε} : P.canLeave → P.test t .normal → Loop P t .normal
  | testEnds {t : List ε} {o : Outcome} : P.test t o → o ≠ .normal → Loop P t o
  | breaks {t₁ t₂ : List ε} : P.canEnter → P.test t₁ .normal → P.body t₂ .breaks →
      Loop P (t₁ ++ t₂) .normal
  | bodyEnds {t₁ t₂ : List ε} {o : Outcome} : P.canEnter → P.test t₁ .normal → P.body t₂ o →
      o ≠ .normal → o ≠ .breaks → o ≠ .continues → Loop P (t₁ ++ t₂) o
  | stepEnds {t₁ t₂ t₃ : List ε} {o o' : Outcome} : P.canEnter → P.test t₁ .normal →
      P.body t₂ o → o = .normal ∨ o = .continues → P.step t₃ o' → o' ≠ .normal →
      Loop P (t₁ ++ t₂ ++ t₃) o'
  | stop {t₁ t₂ t₃ : List ε} {o : Outcome} : P.canEnter → P.test t₁ .normal → P.body t₂ o →
      o = .normal ∨ o = .continues → P.step t₃ .normal → P.canStop →
      Loop P (t₁ ++ t₂ ++ t₃) .normal
  | next {t₁ t₂ t₃ t₄ : List ε} {o o' : Outcome} : P.canEnter → P.test t₁ .normal →
      P.body t₂ o → o = .normal ∨ o = .continues → P.step t₃ .normal → P.canRepeat →
      Loop P t₄ o' → Loop P (t₁ ++ t₂ ++ t₃ ++ t₄) o'

/-! ### The laws of sequence -/

@[simp] theorem skip_iff {t : List ε} {o : Outcome} :
    (skip : Behaviour ε) t o ↔ t = [] ∧ o = .normal := Iff.rfl

@[simp] theorem jump_iff {o o' : Outcome} {t : List ε} :
    (jump o : Behaviour ε) t o' ↔ t = [] ∧ o' = o := Iff.rfl

theorem seq_normal {a b : Behaviour ε} {t₁ t₂ : List ε} {o : Outcome} (ha : a t₁ .normal)
    (hb : b t₂ o) : seq a b (t₁ ++ t₂) o := .inr ⟨t₁, t₂, ha, hb, rfl⟩

theorem op_normal {e : ε} : op e [e] .normal := .inl ⟨rfl, rfl⟩

@[simp] theorem skip_seq (a : Behaviour ε) : seq skip a = a := by
  refine ext fun t o => ⟨?_, fun h => .inr ⟨[], t, ⟨rfl, rfl⟩, h, rfl⟩⟩
  rintro (⟨⟨-, rfl⟩, hne⟩ | ⟨t₁, t₂, ⟨rfl, -⟩, h, rfl⟩)
  · exact absurd rfl hne
  · exact h

@[simp] theorem seq_skip (a : Behaviour ε) : seq a skip = a := by
  refine ext fun t o => ⟨?_, fun h => ?_⟩
  · rintro (⟨h, -⟩ | ⟨t₁, t₂, h, ⟨rfl, rfl⟩, rfl⟩)
    · exact h
    · rwa [List.append_nil]
  · by_cases ho : o = .normal
    · subst ho
      exact .inr ⟨t, [], h, ⟨rfl, rfl⟩, by simp⟩
    · exact .inl ⟨h, ho⟩

theorem seq_assoc (a b c : Behaviour ε) : seq (seq a b) c = seq a (seq b c) := by
  refine ext fun t o => ⟨?_, ?_⟩
  · rintro (⟨⟨h, hne⟩ | ⟨t₁, t₂, ha, hb, rfl⟩, hne'⟩ | ⟨_, t₃, ⟨-, hne⟩ | ⟨t₁, t₂, ha, hb, rfl⟩, hc, rfl⟩)
    · exact .inl ⟨h, hne⟩
    · exact .inr ⟨t₁, t₂, ha, .inl ⟨hb, hne'⟩, rfl⟩
    · exact absurd rfl hne
    · exact .inr ⟨t₁, t₂ ++ t₃, ha, .inr ⟨t₂, t₃, hb, hc, rfl⟩, by simp⟩
  · rintro (⟨h, hne⟩ | ⟨t₁, _, ha, ⟨hb, hne⟩ | ⟨t₂, t₃, hb, hc, rfl⟩, rfl⟩)
    · exact .inl ⟨.inl ⟨h, hne⟩, hne⟩
    · exact .inl ⟨.inr ⟨t₁, _, ha, hb, rfl⟩, hne⟩
    · exact .inr ⟨t₁ ++ t₂, t₃, .inr ⟨t₁, t₂, ha, hb, rfl⟩, hc, by simp⟩

@[simp] theorem jump_seq {o : Outcome} (ho : o ≠ .normal) (a : Behaviour ε) :
    seq (jump o) a = jump o := by
  refine ext fun t o' => ⟨?_, fun h => .inl ⟨h, h.2 ▸ ho⟩⟩
  rintro (⟨h, -⟩ | ⟨t₁, t₂, ⟨-, h⟩, -⟩)
  · exact h
  · exact absurd h.symm ho

theorem choice_comm (a b : Behaviour ε) : choice a b = choice b a :=
  ext fun _ _ => or_comm

/-! ### The laws of cleanup -/

section

variable {f : Outcome → Behaviour ε}

/-- Cleanup for jumps only is spread over a sequence. -/
theorem onExit_seq (hf : f .normal = skip) (a b : Behaviour ε) :
    onExit f (seq a b) = seq (onExit f a) (onExit f b) := by
  refine ext fun t o => ⟨?_, ?_⟩
  · rintro ⟨_, o₁, t₃, o₂, ⟨ha, hne⟩ | ⟨t₁, t₂, ha, hb, rfl⟩, hexit, rfl, rfl⟩
    · refine .inl ⟨⟨_, o₁, t₃, o₂, ha, hexit, rfl, rfl⟩, ?_⟩
      split
      · exact hne
      · assumption
    · refine .inr ⟨t₁, t₂ ++ t₃, ⟨t₁, .normal, [], .normal, ha, ?_, by simp, by simp⟩,
        ⟨t₂, o₁, t₃, o₂, hb, hexit, rfl, rfl⟩, by simp⟩
      rw [hf]
      exact ⟨rfl, rfl⟩
  · rintro (⟨⟨t₁, o₁, t₂, o₂, ha, hexit, rfl, ho⟩, hne⟩ |
      ⟨_, _, ⟨t₁, o₁, t₂, o₂, ha, hexit, rfl, ho⟩, ⟨t₃, o₃, t₄, o₄, hb, hexit', rfl, rfl⟩, rfl⟩)
    · refine ⟨t₁, o₁, t₂, o₂, .inl ⟨ha, ?_⟩, hexit, rfl, ho⟩
      rintro rfl
      rw [hf] at hexit
      obtain ⟨-, rfl⟩ := hexit
      exact hne (by simpa using ho)
    · have hnormal : o₁ = .normal ∧ o₂ = .normal := by
        split at ho
        · exact ⟨ho.symm, by assumption⟩
        · exact absurd ho.symm (by assumption)
      obtain ⟨rfl, rfl⟩ := hnormal
      rw [hf] at hexit
      obtain ⟨rfl, -⟩ := hexit
      exact ⟨t₁ ++ t₃, o₃, t₄, o₄, .inr ⟨t₁, t₃, ha, hb, rfl⟩, hexit', by simp, rfl⟩

theorem onExit_choice (a b : Behaviour ε) :
    onExit f (choice a b) = choice (onExit f a) (onExit f b) := by
  refine ext fun t o => ⟨?_, ?_⟩
  · rintro ⟨t₁, o₁, t₂, o₂, h | h, hexit, ht, ho⟩
    · exact .inl ⟨t₁, o₁, t₂, o₂, h, hexit, ht, ho⟩
    · exact .inr ⟨t₁, o₁, t₂, o₂, h, hexit, ht, ho⟩
  · rintro (⟨t₁, o₁, t₂, o₂, h, hexit, ht, ho⟩ | ⟨t₁, o₁, t₂, o₂, h, hexit, ht, ho⟩)
    · exact ⟨t₁, o₁, t₂, o₂, .inl h, hexit, ht, ho⟩
    · exact ⟨t₁, o₁, t₂, o₂, .inr h, hexit, ht, ho⟩

theorem onExit_given (p : Prop) (a : Behaviour ε) :
    onExit f (given p a) = given p (onExit f a) := by
  refine ext fun t o => ⟨?_, ?_⟩
  · rintro ⟨t₁, o₁, t₂, o₂, ⟨hp, h⟩, hexit, ht, ho⟩
    exact ⟨hp, t₁, o₁, t₂, o₂, h, hexit, ht, ho⟩
  · rintro ⟨hp, t₁, o₁, t₂, o₂, h, hexit, ht, ho⟩
    exact ⟨t₁, o₁, t₂, o₂, ⟨hp, h⟩, hexit, ht, ho⟩

theorem onExit_never : onExit f (never : Behaviour ε) = never := by
  refine ext fun t o => ⟨?_, False.elim⟩
  rintro ⟨_, _, _, _, h, -⟩
  exact h

/-- Where nothing is to be done, nothing changes. -/
theorem onExit_eq_self {a : Behaviour ε} (h : ∀ t o, a t o → f o = skip) : onExit f a = a := by
  refine ext fun t o => ⟨?_, fun ha => ⟨t, o, [], .normal, ha, ?_, by simp, by simp⟩⟩
  · rintro ⟨t₁, o₁, t₂, o₂, ha, hexit, rfl, rfl⟩
    rw [h t₁ o₁ ha] at hexit
    obtain ⟨rfl, rfl⟩ := hexit
    simpa using ha
  · rw [h t o ha]
    exact ⟨rfl, rfl⟩

theorem onExit_skip (hf : f .normal = skip) : onExit f (skip : Behaviour ε) = skip :=
  onExit_eq_self fun _ _ h => h.2 ▸ hf

/-- A jump with its cleanup before it. -/
theorem onExit_jump {o : Outcome} (ho : o ≠ .normal) :
    onExit f (jump o : Behaviour ε) = seq (f o) (jump o) := by
  refine ext fun t o' => ⟨?_, ?_⟩
  · rintro ⟨t₁, o₁, t₂, o₂, ⟨rfl, rfl⟩, hexit, rfl, rfl⟩
    by_cases h₂ : o₂ = .normal
    · rw [h₂] at hexit
      exact .inr ⟨_, [], hexit, ⟨rfl, by simp [h₂]⟩, by simp⟩
    · exact .inl ⟨by simpa [h₂] using hexit, by simp [h₂]⟩
  · rintro (⟨h, hne⟩ | ⟨t₁, t₂, h, ⟨rfl, rfl⟩, rfl⟩)
    · exact ⟨[], o, t, o', ⟨rfl, rfl⟩, h, rfl, by simp [hne]⟩
    · exact ⟨[], o', t₁, .normal, ⟨rfl, rfl⟩, h, by simp, by simp⟩

/-- Cleanup inside cleanup is done first. -/
theorem onExit_onExit {g : Outcome → Behaviour ε}
    (hg : ∀ o t o', g o t o' → o' = .normal ∨ o' = .halts) (hf : f .halts = skip)
    (a : Behaviour ε) :
    onExit f (onExit g a) = onExit (fun o => seq (g o) (f o)) a := by
  refine ext fun t o => ⟨?_, ?_⟩
  · rintro ⟨_, _, t₃, o₃, ⟨t₁, o₁, t₂, o₂, ha, hexit, rfl, rfl⟩, hexit', rfl, rfl⟩
    obtain rfl | rfl := hg _ _ _ hexit
    · exact ⟨t₁, o₁, t₂ ++ t₃, o₃, ha, .inr ⟨t₂, t₃, hexit, hexit', rfl⟩, by simp, by simp⟩
    · simp only [reduceCtorEq, if_false, hf] at hexit'
      obtain ⟨rfl, rfl⟩ := hexit'
      exact ⟨t₁, o₁, t₂, .halts, ha, .inl ⟨hexit, nofun⟩, by simp, by simp⟩
  · rintro ⟨t₁, o₁, _, o₃, ha, ⟨hexit, hne⟩ | ⟨t₂, t₃, hexit, hexit', rfl⟩, rfl, rfl⟩
    · obtain rfl | rfl := hg _ _ _ hexit
      · exact absurd rfl hne
      · refine ⟨_, _, [], .normal, ⟨t₁, o₁, _, .halts, ha, hexit, rfl, rfl⟩, ?_, by simp, by simp⟩
        simp [hf]
    · exact ⟨_, _, t₃, o₃, ⟨t₁, o₁, t₂, .normal, ha, hexit, rfl, rfl⟩, by simpa using hexit',
        by simp, by simp⟩

theorem onExit_congr {g : Outcome → Behaviour ε} {a : Behaviour ε}
    (h : ∀ t o, a t o → f o = g o) : onExit f a = onExit g a := by
  refine ext fun t o => ⟨?_, ?_⟩
  · rintro ⟨t₁, o₁, t₂, o₂, ha, hexit, ht, ho⟩
    exact ⟨t₁, o₁, t₂, o₂, ha, h t₁ o₁ ha ▸ hexit, ht, ho⟩
  · rintro ⟨t₁, o₁, t₂, o₂, ha, hexit, ht, ho⟩
    exact ⟨t₁, o₁, t₂, o₂, ha, (h t₁ o₁ ha).symm ▸ hexit, ht, ho⟩

/-- Cleanup for jumps says nothing about runs that come to their end. -/
theorem onExit_normal_iff (hf : f .normal = skip) {a : Behaviour ε} {t : List ε} :
    onExit f a t .normal ↔ a t .normal := by
  refine ⟨?_, fun h => ⟨t, .normal, [], .normal, h, by rw [hf]; exact ⟨rfl, rfl⟩, by simp, rfl⟩⟩
  rintro ⟨t₁, o₁, t₂, o₂, ha, hexit, rfl, ho⟩
  have hnormal : o₁ = .normal := by
    split at ho
    · exact ho.symm
    · exact absurd ho.symm (by assumption)
  subst hnormal
  rw [hf] at hexit
  obtain ⟨rfl, rfl⟩ := hexit
  simpa using ha

/-- A run that was cleaned up, taken apart. -/
theorem onExit_cases (hf : f .normal = skip)
    (hends : ∀ o t o', f o t o' → o' = .normal ∨ o' = .halts) {a : Behaviour ε} {t : List ε}
    {o : Outcome} (h : onExit f a t o) (ho : o ≠ .normal) :
    ∃ t₁ o₁ t₂, a t₁ o₁ ∧ o₁ ≠ .normal ∧ t = t₁ ++ t₂ ∧
      (f o₁ t₂ .normal ∧ o = o₁ ∨ f o₁ t₂ .halts ∧ o = .halts) := by
  obtain ⟨t₁, o₁, t₂, o₂, ha, hexit, rfl, rfl⟩ := h
  refine ⟨t₁, o₁, t₂, ha, ?_, rfl, ?_⟩
  · rintro rfl
    rw [hf] at hexit
    obtain ⟨-, rfl⟩ := hexit
    exact ho rfl
  · obtain rfl | rfl := hends _ _ _ hexit
    · exact .inl ⟨hexit, by simp⟩
    · exact .inr ⟨hexit, by simp⟩

theorem onExit_of_normal {a : Behaviour ε} {t₁ t₂ : List ε} {o : Outcome} (ha : a t₁ o)
    (hexit : f o t₂ .normal) : onExit f a (t₁ ++ t₂) o :=
  ⟨t₁, o, t₂, .normal, ha, hexit, rfl, rfl⟩

theorem onExit_of_halts {a : Behaviour ε} {t₁ t₂ : List ε} {o : Outcome} (ha : a t₁ o)
    (hexit : f o t₂ .halts) : onExit f a (t₁ ++ t₂) .halts :=
  ⟨t₁, o, t₂, .halts, ha, hexit, rfl, rfl⟩

/-- Cleanup of a sequence is done at the jumps out of its first part, and at every end of its
second. -/
theorem onExit_seq_last (a b : Behaviour ε) :
    onExit f (seq a b) = seq (onExit (jumps f) a) (onExit f b) := by
  refine ext fun t o => ⟨?_, ?_⟩
  · rintro ⟨_, o₁, t₃, o₂, ⟨ha, hne⟩ | ⟨t₁, t₂, ha, hb, rfl⟩, hexit, rfl, rfl⟩
    · have hexit' : jumps f o₁ t₃ o₂ := by cases o₁ <;> first | exact hexit | contradiction
      refine .inl ⟨⟨_, o₁, t₃, o₂, ha, hexit', rfl, rfl⟩, ?_⟩
      split
      · exact hne
      · assumption
    · exact .inr ⟨t₁, t₂ ++ t₃, (onExit_normal_iff (jumps_normal f)).mpr ha,
        ⟨t₂, o₁, t₃, o₂, hb, hexit, rfl, rfl⟩, by simp⟩
  · rintro (⟨⟨t₁, o₁, t₂, o₂, ha, hexit, rfl, rfl⟩, hne⟩ | ⟨t₁, t₂, ha, hb, rfl⟩)
    · cases o₁ with
      | normal =>
        obtain ⟨-, rfl⟩ := hexit
        exact absurd rfl hne
      | _ => exact ⟨t₁, _, t₂, o₂, .inl ⟨ha, nofun⟩, hexit, rfl, rfl⟩
    · obtain ⟨t₂, o₁, t₃, o₂, hb, hexit, rfl, rfl⟩ := hb
      exact ⟨t₁ ++ t₂, o₁, t₃, o₂,
        .inr ⟨t₁, t₂, (onExit_normal_iff (jumps_normal f)).mp ha, hb, rfl⟩, hexit, by simp, rfl⟩

theorem cleanup_skip (d : Behaviour ε) : cleanup skip d = d := by
  refine ext fun t o => ⟨?_, fun h => ⟨[], .normal, t, o, ⟨rfl, rfl⟩, h, rfl, ?_⟩⟩
  · rintro ⟨_, _, t₂, o₂, ⟨rfl, rfl⟩, hexit, rfl, rfl⟩
    split
    · simp_all [always]
    · exact hexit
  · split <;> simp_all

@[simp] theorem cleanup_by_skip (a : Behaviour ε) : cleanup a skip = a :=
  onExit_eq_self fun _ o _ => by cases o <;> rfl

/-- Two cleanups, the inner one first. -/
theorem cleanup_cleanup {d : Behaviour ε} (hd : Within (fun o => o = .normal ∨ o = .halts) d)
    (a e : Behaviour ε) : cleanup (cleanup a d) e = cleanup a (seq d e) := by
  refine (onExit_onExit (fun o t o' h => ?_) rfl a).trans (congrArg (onExit · a) (funext fun o => ?_))
  · cases o with
    | halts => exact .inl h.2
    | _ => exact hd _ _ h
  · cases o with
    | halts => exact seq_skip _
    | _ => rfl

end

/-! ### The ways a program may end -/

section

variable {p q : Outcome → Prop} {a b : Behaviour ε}

theorem Within.mono (h : Within p a) (hpq : ∀ o, p o → q o) : Within q a :=
  fun t o ha => hpq o (h t o ha)

theorem within_skip (h : p .normal) : Within p (skip : Behaviour ε) := fun _ _ h' => h'.2 ▸ h

theorem within_jump {o : Outcome} (h : p o) : Within p (jump o : Behaviour ε) :=
  fun _ _ h' => h'.2 ▸ h

theorem within_event {e : ε} (h : p .normal) : Within p (event e) := fun _ _ h' => h'.2 ▸ h

theorem within_op {e : ε} (h : p .normal) (h' : p .halts) : Within p (op e) := by
  rintro t o (⟨-, rfl⟩ | ⟨-, rfl⟩)
  · exact h
  · exact h'

theorem within_seq (ha : Within p a) (hb : Within p b) : Within p (seq a b) := by
  rintro t o (⟨h, -⟩ | ⟨t₁, t₂, -, h, -⟩)
  · exact ha _ _ h
  · exact hb _ _ h

theorem within_choice (ha : Within p a) (hb : Within p b) : Within p (choice a b) := by
  rintro t o (h | h)
  · exact ha _ _ h
  · exact hb _ _ h

theorem within_given {c : Prop} (ha : Within p a) : Within p (given c a) := fun t o h => ha t o h.2

/-- Cleanup that comes to its end ends the program as it was to end. -/
theorem within_cleanup (ha : Within p a) (hb : Within (fun o => o = .normal ∨ o = .halts) b)
    (h : p .halts) : Within p (cleanup a b) := by
  rintro t o ⟨t₁, o₁, t₂, o₂, h₁, hexit, -, rfl⟩
  split
  · exact ha _ _ h₁
  · cases o₁ with
    | halts => exact absurd hexit.2 (by assumption)
    | _ => obtain rfl | rfl := hb _ _ hexit <;> first | contradiction | exact h

theorem within_loop {P : Parts ε} (h : p .normal) (ht : Within p P.test)
    (hb : Within (fun o => p o ∨ o = .breaks ∨ o = .continues) P.body) (hs : Within p P.step) :
    Within p (Loop P) := by
  intro t o hloop
  induction hloop with
  | leave | breaks | stop => exact h
  | testEnds hend => exact ht _ _ hend
  | bodyEnds _ _ hend _ hbr hco =>
    obtain hp | rfl | rfl := hb _ _ hend
    · exact hp
    · contradiction
    · contradiction
  | stepEnds _ _ _ _ hend => exact hs _ _ hend
  | next _ _ _ _ _ _ _ ih => exact ih

end

/-! ### What a program may show -/

/-- Every event of a run is allowed. -/
def Shows (p : ε → Prop) (a : Behaviour ε) : Prop := ∀ t o, a t o → ∀ e ∈ t, p e

/-- A property of programs that the ways of putting them together keep. -/
structure Closed (C : Behaviour ε → Prop) : Prop where
  skip : C skip
  seq {a b : Behaviour ε} : C a → C b → C (seq a b)
  choice {a b : Behaviour ε} : C a → C b → C (choice a b)
  given {c : Prop} {a : Behaviour ε} : C a → C (given c a)
  cleanup {a d : Behaviour ε} : C a → C d → C (cleanup a d)
  loop {P : Parts ε} : C P.test → C P.body → C P.step → C (Loop P)

section

variable {p : ε → Prop}

theorem shows_jump (o : Outcome) : Shows p (jump o) := by
  rintro t o' ⟨rfl, -⟩ e he
  cases he

theorem shows_op {e : ε} (h : p e) : Shows p (op e) := by
  rintro t o (⟨rfl, -⟩ | ⟨rfl, -⟩)
  · simpa using h
  · simp

theorem closed_shows : Closed (Shows p) where
  skip := shows_jump .normal
  seq := by
    rintro a b ha hb t o (⟨h, -⟩ | ⟨t₁, t₂, h₁, h₂, rfl⟩)
    · exact ha t o h
    · rw [List.forall_mem_append]
      exact ⟨ha _ _ h₁, hb _ _ h₂⟩
  choice := by
    rintro a b ha hb t o (h | h)
    · exact ha t o h
    · exact hb t o h
  given := fun ha t o h => ha t o h.2
  cleanup := by
    rintro a d ha hd _ _ ⟨t₁, o₁, t₂, o₂, h₁, h₂, rfl, -⟩
    rw [List.forall_mem_append]
    refine ⟨ha _ _ h₁, ?_⟩
    cases o₁ with
    | halts =>
      obtain ⟨rfl, -⟩ := h₂
      simp
    | _ => exact hd _ _ h₂
  loop := by
    intro P ht hb hs t o h
    induction h with
    | leave _ htest => exact ht _ _ htest
    | testEnds htest => exact ht _ _ htest
    | breaks _ htest hbody | bodyEnds _ htest hbody =>
      rw [List.forall_mem_append]
      exact ⟨ht _ _ htest, hb _ _ hbody⟩
    | stepEnds _ htest hbody _ hstep | stop _ htest hbody _ hstep =>
      rw [List.forall_mem_append, List.forall_mem_append]
      exact ⟨⟨ht _ _ htest, hb _ _ hbody⟩, hs _ _ hstep⟩
    | next _ htest hbody _ hstep _ _ ih =>
      rw [List.forall_mem_append, List.forall_mem_append, List.forall_mem_append]
      exact ⟨⟨⟨ht _ _ htest, hb _ _ hbody⟩, hs _ _ hstep⟩, ih⟩

end

/-- Programs that come to their end or are cut off. -/
theorem closed_settles :
    Closed (Within fun o => o = .normal ∨ o = .halts : Behaviour ε → Prop) where
  skip := within_skip (.inl rfl)
  seq := within_seq
  choice := within_choice
  given := within_given
  cleanup := fun ha hd => within_cleanup ha hd (.inr rfl)
  loop := fun ht hb hs => within_loop (.inl rfl) ht (hb.mono fun _ h => .inl h) hs

/-! ### Cleanup and loops -/

/-- The cleanup for the jumps that leave a loop, seen from inside its body. -/
def inLoop (f : Outcome → Behaviour ε) : Outcome → Behaviour ε
  | .breaks | .continues => skip
  | o => f o

/-- The parts of a loop with the cleanup spread over them. -/
def Parts.onExit (f : Outcome → Behaviour ε) (P : Parts ε) : Parts ε :=
  { P with
    test := Behaviour.onExit f P.test
    body := Behaviour.onExit (inLoop f) P.body
    step := Behaviour.onExit f P.step }

section

variable {f : Outcome → Behaviour ε} {P : Parts ε}

theorem inLoop_ends (hends : ∀ o t o', f o t o' → o' = .normal ∨ o' = .halts) :
    ∀ o t o', inLoop f o t o' → o' = .normal ∨ o' = .halts := by
  intro o t o' h
  cases o with
  | breaks | continues => exact .inl h.2
  | _ => exact hends _ _ _ h

theorem loop_of_onExit (hf : f .normal = skip)
    (hends : ∀ o t o', f o t o' → o' = .normal ∨ o' = .halts) {t : List ε} {o : Outcome}
    (h : Loop (P.onExit f) t o) : onExit f (Loop P) t o := by
  have hin : inLoop f .normal = skip := hf
  have hends' := inLoop_ends hends
  have hgoes : ∀ {t o}, onExit (inLoop f) P.body t o → o = .normal ∨ o = .continues →
      P.body t o := by
    rintro t o hbody (rfl | rfl)
    · exact (onExit_normal_iff hin).mp hbody
    · obtain ⟨t₁, o₁, t₂, ha, -, rfl, ⟨hexit, rfl⟩ | ⟨-, ho⟩⟩ :=
        onExit_cases hin hends' hbody nofun
      · obtain ⟨rfl, -⟩ := hexit
        simpa using ha
      · cases ho
  induction h with
  | leave hc ht => exact (onExit_normal_iff hf).mpr (.leave hc ((onExit_normal_iff hf).mp ht))
  | testEnds ht ho =>
    obtain ⟨t₁, o₁, t₂, ha, hne, rfl, ⟨hexit, rfl⟩ | ⟨hexit, rfl⟩⟩ := onExit_cases hf hends ht ho
    · exact onExit_of_normal (.testEnds ha hne) hexit
    · exact onExit_of_halts (.testEnds ha hne) hexit
  | breaks hc ht hb =>
    obtain ⟨t₁, o₁, t₂, ha, -, rfl, ⟨hexit, rfl⟩ | ⟨-, ho⟩⟩ := onExit_cases hin hends' hb nofun
    · obtain ⟨rfl, -⟩ := hexit
      rw [List.append_nil]
      exact (onExit_normal_iff hf).mpr (.breaks hc ((onExit_normal_iff hf).mp ht) ha)
    · cases ho
  | bodyEnds hc ht hb hne hbr hco =>
    have ht := (onExit_normal_iff hf).mp ht
    obtain ⟨t₁, o₁, t₂, ha, hne₁, rfl, hexit⟩ := onExit_cases hin hends' hb hne
    cases o₁ with
    | normal => exact absurd rfl hne₁
    | breaks | continues =>
      obtain ⟨hexit, rfl⟩ | ⟨⟨-, hexit⟩, -⟩ := hexit
      · first | exact absurd rfl hbr | exact absurd rfl hco
      · cases hexit
    | _ =>
      rw [← List.append_assoc]
      obtain ⟨hexit, rfl⟩ | ⟨hexit, rfl⟩ := hexit
      · exact onExit_of_normal (.bodyEnds hc ht ha hne₁ nofun nofun) hexit
      · exact onExit_of_halts (.bodyEnds hc ht ha hne₁ nofun nofun) hexit
  | stepEnds hc ht hb ho hs hne =>
    obtain ⟨t₁, o₁, t₂, ha, hne₁, rfl, ⟨hexit, rfl⟩ | ⟨hexit, rfl⟩⟩ := onExit_cases hf hends hs hne
    all_goals rw [← List.append_assoc]
    · exact onExit_of_normal (.stepEnds hc ((onExit_normal_iff hf).mp ht) (hgoes hb ho) ho ha hne₁)
        hexit
    · exact onExit_of_halts (.stepEnds hc ((onExit_normal_iff hf).mp ht) (hgoes hb ho) ho ha hne₁)
        hexit
  | stop hc ht hb ho hs hstop =>
    exact (onExit_normal_iff hf).mpr (.stop hc ((onExit_normal_iff hf).mp ht) (hgoes hb ho) ho
      ((onExit_normal_iff hf).mp hs) hstop)
  | next hc ht hb ho hs hr _ ih =>
    obtain ⟨t₁, o₁, t₂, o₂, ha, hexit, rfl, rfl⟩ := ih
    refine ⟨_, o₁, t₂, o₂, .next hc ((onExit_normal_iff hf).mp ht) (hgoes hb ho) ho
      ((onExit_normal_iff hf).mp hs) hr ha, hexit, by simp, rfl⟩

/-- Cleanup at the ends of a loop is spread over its parts; the body's own jumps need none. -/
theorem onExit_loop (hf : f .normal = skip)
    (hends : ∀ o t o', f o t o' → o' = .normal ∨ o' = .halts) :
    onExit f (Loop P) = Loop (P.onExit f) := by
  refine ext fun t o => ⟨?_, loop_of_onExit hf hends⟩
  have hin : inLoop f .normal = skip := hf
  have hgoes : ∀ {t o}, P.body t o → o = .normal ∨ o = .continues →
      onExit (inLoop f) P.body t o := by
    rintro t o hbody (rfl | rfl)
    · exact (onExit_normal_iff hin).mpr hbody
    · exact ⟨t, _, [], .normal, hbody, ⟨rfl, rfl⟩, by simp, rfl⟩
  rintro ⟨t₁, o₁, t₂, o₂, hloop, hexit, rfl, rfl⟩
  induction hloop with
  | leave hc ht =>
    rw [hf] at hexit
    obtain ⟨rfl, rfl⟩ := hexit
    rw [List.append_nil]
    exact .leave hc ((onExit_normal_iff hf).mpr ht)
  | testEnds ht ho =>
    refine .testEnds ⟨_, _, t₂, o₂, ht, hexit, rfl, rfl⟩ ?_
    split <;> assumption
  | breaks hc ht hb =>
    rw [hf] at hexit
    obtain ⟨rfl, rfl⟩ := hexit
    rw [List.append_nil]
    exact .breaks hc ((onExit_normal_iff hf).mpr ht) ⟨_, _, [], .normal, hb, ⟨rfl, rfl⟩, by simp, rfl⟩
  | @bodyEnds t₁ t₁' o hc ht hb hne hbr hco =>
    have hexit' : inLoop f o t₂ o₂ := by cases o <;> first | exact hexit | contradiction
    rw [List.append_assoc]
    have hends := hends _ _ _ hexit
    refine .bodyEnds hc ((onExit_normal_iff hf).mpr ht) ⟨_, o, t₂, o₂, hb, hexit', rfl, rfl⟩ ?_ ?_ ?_
    all_goals
      obtain rfl | rfl := hends
      · simpa using by assumption
      · simp
  | stepEnds hc ht hb ho hs hne =>
    rw [List.append_assoc]
    refine .stepEnds hc ((onExit_normal_iff hf).mpr ht) (hgoes hb ho) ho
      ⟨_, _, t₂, o₂, hs, hexit, rfl, rfl⟩ ?_
    split <;> assumption
  | stop hc ht hb ho hs hstop =>
    rw [hf] at hexit
    obtain ⟨rfl, rfl⟩ := hexit
    rw [List.append_nil]
    exact .stop hc ((onExit_normal_iff hf).mpr ht) (hgoes hb ho) ho ((onExit_normal_iff hf).mpr hs)
      hstop
  | next hc ht hb ho hs hr _ ih =>
    rw [List.append_assoc]
    exact .next hc ((onExit_normal_iff hf).mpr ht) (hgoes hb ho) ho ((onExit_normal_iff hf).mpr hs)
      hr (ih hexit)

end

/-! ### Some of the events -/

section

variable {k : ε → Bool}

theorem only_jump (o : Outcome) : only k (jump o) = jump o := by
  refine ext fun t o' => ⟨?_, fun h => ⟨[], ⟨rfl, h.2⟩, h.1⟩⟩
  rintro ⟨_, ⟨rfl, ho⟩, rfl⟩
  exact ⟨rfl, ho⟩

theorem only_skip : only k skip = skip := only_jump .normal

theorem only_event_of_true {e : ε} (h : k e = true) : only k (event e) = event e := by
  refine ext fun t o => ⟨?_, fun h' => ⟨[e], ⟨rfl, h'.2⟩, by simpa [h] using h'.1⟩⟩
  rintro ⟨_, ⟨rfl, ho⟩, rfl⟩
  exact ⟨by simp [h], ho⟩

theorem only_event_of_false {e : ε} (h : k e = false) : only k (event e) = skip := by
  refine ext fun t o => ⟨?_, fun h' => ⟨[e], ⟨rfl, h'.2⟩, by simpa [h] using h'.1⟩⟩
  rintro ⟨_, ⟨rfl, ho⟩, rfl⟩
  exact ⟨by simp [h], ho⟩

theorem only_op {e : ε} (h : k e = true) : only k (op e) = op e := by
  refine ext fun t o => ⟨?_, ?_⟩
  · rintro ⟨_, ⟨rfl, ho⟩ | ⟨rfl, ho⟩, rfl⟩
    · exact .inl ⟨by simp [h], ho⟩
    · exact .inr ⟨rfl, ho⟩
  · rintro (⟨rfl, ho⟩ | ⟨rfl, ho⟩)
    · exact ⟨[e], .inl ⟨rfl, ho⟩, by simp [h]⟩
    · exact ⟨[], .inr ⟨rfl, ho⟩, rfl⟩

theorem only_choice (a b : Behaviour ε) : only k (choice a b) = choice (only k a) (only k b) := by
  refine ext fun t o => ⟨?_, ?_⟩
  · rintro ⟨t', h | h, ht⟩
    · exact .inl ⟨t', h, ht⟩
    · exact .inr ⟨t', h, ht⟩
  · rintro (⟨t', h, ht⟩ | ⟨t', h, ht⟩)
    · exact ⟨t', .inl h, ht⟩
    · exact ⟨t', .inr h, ht⟩

theorem only_given (p : Prop) (a : Behaviour ε) : only k (given p a) = given p (only k a) := by
  refine ext fun t o => ⟨?_, ?_⟩
  · rintro ⟨t', ⟨hp, h⟩, ht⟩
    exact ⟨hp, t', h, ht⟩
  · rintro ⟨hp, t', h, ht⟩
    exact ⟨t', ⟨hp, h⟩, ht⟩

theorem only_seq (a b : Behaviour ε) : only k (seq a b) = seq (only k a) (only k b) := by
  refine ext fun t o => ⟨?_, ?_⟩
  · rintro ⟨_, ⟨h, hne⟩ | ⟨t₁, t₂, ha, hb, rfl⟩, rfl⟩
    · exact .inl ⟨⟨_, h, rfl⟩, hne⟩
    · exact .inr ⟨_, _, ⟨t₁, ha, rfl⟩, ⟨t₂, hb, rfl⟩, by simp⟩
  · rintro (⟨⟨t', h, ht⟩, hne⟩ | ⟨_, _, ⟨t₁, ha, rfl⟩, ⟨t₂, hb, rfl⟩, rfl⟩)
    · exact ⟨t', .inl ⟨h, hne⟩, ht⟩
    · exact ⟨t₁ ++ t₂, .inr ⟨t₁, t₂, ha, hb, rfl⟩, by simp⟩

theorem only_onExit (f : Outcome → Behaviour ε) (a : Behaviour ε) :
    only k (onExit f a) = onExit (fun o => only k (f o)) (only k a) := by
  refine ext fun t o => ⟨?_, ?_⟩
  · rintro ⟨_, ⟨t₁, o₁, t₂, o₂, ha, hexit, rfl, ho⟩, rfl⟩
    exact ⟨_, o₁, _, o₂, ⟨t₁, ha, rfl⟩, ⟨t₂, hexit, rfl⟩, by simp, ho⟩
  · rintro ⟨_, o₁, _, o₂, ⟨t₁, ha, rfl⟩, ⟨t₂, hexit, rfl⟩, rfl, ho⟩
    exact ⟨t₁ ++ t₂, ⟨t₁, o₁, t₂, o₂, ha, hexit, rfl, ho⟩, by simp⟩

theorem only_cleanup (a d : Behaviour ε) :
    only k (cleanup a d) = cleanup (only k a) (only k d) := by
  rw [cleanup, only_onExit]
  refine congrArg (onExit · _) (funext fun o => ?_)
  cases o with
  | halts => exact only_skip
  | _ => rfl

/-- The parts of a loop, of which only some of the events are seen. -/
def Parts.only (k : ε → Bool) (P : Parts ε) : Parts ε :=
  { P with
    test := Behaviour.only k P.test
    body := Behaviour.only k P.body
    step := Behaviour.only k P.step }

theorem only_loop (P : Parts ε) : only k (Loop P) = Loop (P.only k) := by
  refine ext fun t o => ⟨?_, fun h => ?_⟩
  · rintro ⟨t', h, rfl⟩
    induction h with
    | leave hc ht => exact .leave hc ⟨_, ht, rfl⟩
    | testEnds ht ho => exact .testEnds ⟨_, ht, rfl⟩ ho
    | breaks hc ht hb =>
      rw [List.filter_append]
      exact .breaks hc ⟨_, ht, rfl⟩ ⟨_, hb, rfl⟩
    | bodyEnds hc ht hb hne hbr hco =>
      rw [List.filter_append]
      exact .bodyEnds hc ⟨_, ht, rfl⟩ ⟨_, hb, rfl⟩ hne hbr hco
    | stepEnds hc ht hb ho hs hne =>
      rw [List.filter_append, List.filter_append]
      exact .stepEnds hc ⟨_, ht, rfl⟩ ⟨_, hb, rfl⟩ ho ⟨_, hs, rfl⟩ hne
    | stop hc ht hb ho hs hstop =>
      rw [List.filter_append, List.filter_append]
      exact .stop hc ⟨_, ht, rfl⟩ ⟨_, hb, rfl⟩ ho ⟨_, hs, rfl⟩ hstop
    | next hc ht hb ho hs hr _ ih =>
      rw [List.filter_append, List.filter_append, List.filter_append]
      exact .next hc ⟨_, ht, rfl⟩ ⟨_, hb, rfl⟩ ho ⟨_, hs, rfl⟩ hr ih
  · induction h with
    | leave hc ht =>
      obtain ⟨t₁, ht, rfl⟩ := ht
      exact ⟨t₁, .leave hc ht, rfl⟩
    | testEnds ht ho =>
      obtain ⟨t₁, ht, rfl⟩ := ht
      exact ⟨t₁, .testEnds ht ho, rfl⟩
    | breaks hc ht hb =>
      obtain ⟨⟨t₁, ht', rfl⟩, t₂, hb', rfl⟩ := And.intro ht hb
      exact ⟨t₁ ++ t₂, .breaks hc ht' hb', by simp⟩
    | bodyEnds hc ht hb hne hbr hco =>
      obtain ⟨⟨t₁, ht', rfl⟩, t₂, hb', rfl⟩ := And.intro ht hb
      exact ⟨t₁ ++ t₂, .bodyEnds hc ht' hb' hne hbr hco, by simp⟩
    | stepEnds hc ht hb ho hs hne =>
      obtain ⟨⟨t₁, ht', rfl⟩, ⟨t₂, hb', rfl⟩, t₃, hs', rfl⟩ := And.intro ht (And.intro hb hs)
      exact ⟨t₁ ++ t₂ ++ t₃, .stepEnds hc ht' hb' ho hs' hne, by simp⟩
    | stop hc ht hb ho hs hstop =>
      obtain ⟨⟨t₁, ht', rfl⟩, ⟨t₂, hb', rfl⟩, t₃, hs', rfl⟩ := And.intro ht (And.intro hb hs)
      exact ⟨t₁ ++ t₂ ++ t₃, .stop hc ht' hb' ho hs' hstop, by simp⟩
    | next hc ht hb ho hs hr _ ih =>
      obtain ⟨⟨t₁, ht', rfl⟩, ⟨t₂, hb', rfl⟩, ⟨t₃, hs', rfl⟩, t₄, h, rfl⟩ :=
        And.intro ht (And.intro hb (And.intro hs ih))
      exact ⟨t₁ ++ t₂ ++ t₃ ++ t₄, .next hc ht' hb' ho hs' hr h, by simp⟩

end

end Behaviour
